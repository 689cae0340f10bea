import TuplNative.ArrayStackGeneric.Stack

namespace tupl.pvt.ArrayStackGeneric

variable {T : Type} {N : UInt64}

/-- `pop`, with the object that its destructor call is for. There may be no live one. -/
def popDestroyed (ndebug : Bool) : Call Failure (ArrayStackGeneric T N) (Option T) := do
  let stack ← get
  pop ndebug
  return stack.mElems stack.mTop

/-- The loop of `clear`, with the objects that it destroys. -/
def clearLoopDestroyed (ndebug : Bool) : Nat → Call Failure (ArrayStackGeneric T N) (List (Option T))
  | 0 => throw .stackOverflow
  | rounds + 1 => do
    if ¬ (← empty ndebug) = true then
      let object ← popDestroyed ndebug
      let objects ← clearLoopDestroyed ndebug rounds
      return object :: objects
    else
      return []

/-- `clear`, with the objects that it destroys. -/
def clearDestroyed (ndebug : Bool) : Call Failure (ArrayStackGeneric T N) (List (Option T)) := do
  let stack ← get
  clearLoopDestroyed ndebug ((stack.mTop + 1).toNat + 1)

theorem popDestroyed_forget (ndebug : Bool) (stack : ArrayStackGeneric T N) :
    ((fun _ => ()) <$> popDestroyed ndebug : Call Failure (ArrayStackGeneric T N) Unit).exec stack =
      (pop ndebug).exec stack := by
  rw [popDestroyed, Call.exec_map, Call.exec_get_bind, Call.exec_bind]
  rcases (pop ndebug).exec stack with ⟨_ | _, _⟩ <;> rfl

/-- Keeping account of the destroyed objects does not change what `clear` does. -/
theorem clearDestroyed_forget (ndebug : Bool) (stack : ArrayStackGeneric T N) :
    ((fun _ => ()) <$> clearDestroyed ndebug : Call Failure (ArrayStackGeneric T N) Unit).exec stack =
      (clear ndebug).exec stack := by
  have hloop : ∀ rounds (stack : ArrayStackGeneric T N),
      ((fun _ => ()) <$> clearLoopDestroyed ndebug rounds :
        Call Failure (ArrayStackGeneric T N) Unit).exec stack = (clearLoop ndebug rounds).exec stack := by
    intro rounds
    induction rounds with
    | zero =>
      intro stack
      rfl
    | succ rounds ih =>
      intro stack
      rw [clearLoopDestroyed, clearLoop, Call.exec_map, Call.exec_bind, Call.exec_bind]
      rcases (empty ndebug).exec stack with ⟨_ | isEmpty, stack⟩
      · rfl
      · cases isEmpty with
        | true => rfl
        | false =>
          dsimp only
          rw [if_pos Bool.false_ne_true, if_pos Bool.false_ne_true, Call.exec_bind, Call.exec_bind,
            ← popDestroyed_forget, Call.exec_map]
          rcases (popDestroyed ndebug).exec stack with ⟨_ | object, stack⟩
          · rfl
          · dsimp only
            rw [← ih, Call.exec_map, Call.exec_bind]
            rcases (clearLoopDestroyed ndebug rounds).exec stack with ⟨_ | _, _⟩ <;> rfl
  rw [clearDestroyed, clear, Call.exec_map, Call.exec_get_bind, Call.exec_get_bind, ← hloop, Call.exec_map]

/-- What can be called on a stack. -/
inductive Member (T : Type) where
  | emplaceBack (val : T)
  | pop
  | top
  | empty
  | full
  | size
  | clear
  | destructor

namespace Member

/-- The call, with the objects that it destroys. The destructor calls `clear`. -/
def call (ndebug : Bool) : Member T → Call Failure (ArrayStackGeneric T N) (List (Option T))
  | .emplaceBack val => do
    ArrayStackGeneric.emplaceBack ndebug val
    return []
  | .pop => do
    let object ← popDestroyed ndebug
    return [object]
  | .top => do
    let _ ← ArrayStackGeneric.top ndebug
    return []
  | .empty => do
    let _ ← ArrayStackGeneric.empty ndebug
    return []
  | .full => do
    let _ ← ArrayStackGeneric.full ndebug
    return []
  | .size => do
    let stack ← get
    let _ := stack.size
    return []
  | .clear => clearDestroyed ndebug
  | .destructor => clearDestroyed ndebug

/-- A push needs a free slot, `top` and `pop` need an element. -/
def Legal (N : UInt64) (elems : List T) : Member T → Prop
  | .emplaceBack _ => elems.length < N.toNat
  | .pop => elems ≠ []
  | .top => elems ≠ []
  | _ => True

/-- The elements that the call is to destroy. -/
def removes (elems : List T) : Member T → List T
  | .pop => elems.getLast?.toList
  | .clear => elems
  | .destructor => elems
  | _ => []

/-- The assertions that the call evaluates hold: `empty()` asserts that the stack is
empty, and `full()` that it is full. -/
def Asserted (N : UInt64) (elems : List T) : Member T → Prop
  | .emplaceBack _ => False
  | .pop => False
  | .top => False
  | .empty => elems = []
  | .full => elems.length = N.toNat
  | .size => True
  | .clear => elems = []
  | .destructor => elems = []

/-- The call fails no assertion and destroys each element that it is to destroy once. -/
def Succeeds (ndebug : Bool) (elems : List T) (stack : ArrayStackGeneric T N) (member : Member T) : Prop :=
  ∃ destroyed after, (member.call ndebug).exec stack = (.ok destroyed, after) ∧
    destroyed.Perm ((member.removes elems).map some)

end Member

section Checked

variable (elems : List T)

/-- With assertions enabled, `empty()` aborts unless the stack is empty. -/
theorem exec_empty_checked :
    (empty false).exec (ofList elems : ArrayStackGeneric T N) =
      if elems = [] then (.ok true, ofList elems) else (.error .assertion, ofList elems) := by
  unfold empty
  rw [Call.exec_get_bind]
  by_cases hempty : elems = []
  · subst hempty
    rfl
  · have hpos := List.length_pos_iff.mpr hempty
    have htop : ¬ (ofList elems : ArrayStackGeneric T N).mTop = -1 := by
      change ¬ (elems.length : Int) - 1 = -1
      omega
    rw [if_neg hempty, Call.exec_bind_error (exec_assert_false htop _)]

/-- With assertions enabled, `full()` aborts unless the stack is full. -/
theorem exec_full_checked :
    (full false).exec (ofList elems : ArrayStackGeneric T N) =
      if elems.length = N.toNat then (.ok true, ofList elems) else (.error .assertion, ofList elems) := by
  unfold full
  rw [Call.exec_get_bind]
  have htop : (ofList elems : ArrayStackGeneric T N).mTop = N.toNat - 1 ↔ elems.length = N.toNat := by
    change (elems.length : Int) - 1 = N.toNat - 1 ↔ _
    omega
  by_cases hfull : elems.length = N.toNat
  · rw [if_pos hfull, Call.exec_bind_ok (exec_assert false (htop.mpr hfull) _)]
    have hge : (ofList elems : ArrayStackGeneric T N).mTop ≥ N.toNat - 1 := Int.le_of_eq (htop.mpr hfull).symm
    rw [decide_eq_true hge]
    rfl
  · rw [if_neg hfull, Call.exec_bind_error (exec_assert_false (fun heq => hfull (htop.mp heq)) _)]

/-- An asserted negation of a check cannot hold: the check aborts where it would say no,
and elsewhere it says yes. -/
theorem exec_assertNot_error {σ : Type} {call : Call Failure σ Bool} {s : σ}
    (hcall : call.exec s = (.ok true, s) ∨ call.exec s = (.error .assertion, s)) :
    (assertNot false call).exec s = (.error .assertion, s) := by
  rw [assertNot, if_neg Bool.false_ne_true]
  rcases hcall with hyes | habort
  · rw [Call.exec_bind_ok hyes, exec_assert_false (by decide)]
  · rw [Call.exec_bind_error habort]

theorem exec_assertNot_empty :
    (assertNot false (empty (T := T) (N := N) false)).exec (ofList elems) =
      (.error .assertion, ofList elems) := by
  apply exec_assertNot_error
  rw [exec_empty_checked]
  by_cases hempty : elems = []
  · rw [if_pos hempty]
    exact Or.inl rfl
  · rw [if_neg hempty]
    exact Or.inr rfl

theorem exec_assertNot_full :
    (assertNot false (full (T := T) (N := N) false)).exec (ofList elems) =
      (.error .assertion, ofList elems) := by
  apply exec_assertNot_error
  rw [exec_full_checked]
  by_cases hfull : elems.length = N.toNat
  · rw [if_pos hfull]
    exact Or.inl rfl
  · rw [if_neg hfull]
    exact Or.inr rfl

theorem exec_clearDestroyed_checked :
    (clearDestroyed false).exec (ofList elems : ArrayStackGeneric T N) =
      if elems = [] then (.ok [], ofList elems) else (.error .assertion, ofList elems) := by
  have hempty := exec_empty_checked (N := N) elems
  unfold clearDestroyed
  rw [Call.exec_get_bind, clearLoopDestroyed]
  by_cases hnone : elems = []
  · rw [if_pos hnone] at hempty ⊢
    rw [Call.exec_bind_ok hempty]
    rfl
  · rw [if_neg hnone] at hempty ⊢
    rw [Call.exec_bind_error hempty]

/-- With assertions disabled, a pop destroys the last element. -/
theorem exec_popDestroyed (val : T) :
    (popDestroyed true).exec (ofList (elems ++ [val]) : ArrayStackGeneric T N) =
      (.ok (some val), ofList elems) := by
  unfold popDestroyed
  rw [Call.exec_get_bind, Call.exec_bind_ok (exec_pop elems val), ofList_concat_mTop, ofList_mElems_concat,
    Function.update_self]
  rfl

theorem exec_clearLoopDestroyed {rounds : Nat} (hrounds : elems.length < rounds) :
    (clearLoopDestroyed true rounds).exec (ofList elems : ArrayStackGeneric T N) =
      (.ok (elems.reverse.map some), construct) := by
  induction rounds generalizing elems with
  | zero => omega
  | succ rounds ih =>
    rw [clearLoopDestroyed, Call.exec_bind_ok (exec_empty elems)]
    cases elems using List.reverseRecOn with
    | nil =>
      rw [ofList_nil]
      rfl
    | append_singleton elems val =>
      rw [List.length_append, List.length_singleton] at hrounds ⊢
      rw [if_pos (by simp), Call.exec_bind_ok (exec_popDestroyed elems val),
        Call.exec_bind_ok (ih elems (by omega)), List.reverse_concat, List.map_cons]
      rfl

/-- With assertions disabled, `clear` destroys the elements from the top down. -/
theorem exec_clearDestroyed :
    (clearDestroyed true).exec (ofList elems : ArrayStackGeneric T N) =
      (.ok (elems.reverse.map some), construct) := by
  unfold clearDestroyed
  rw [Call.exec_get_bind, ofList_mTop_succ]
  exact exec_clearLoopDestroyed elems (by omega)

end Checked

/-- With assertions disabled every call goes through. -/
theorem Member.succeeds_ndebug {elems : List T} (hfits : elems.length ≤ N.toNat) {member : Member T}
    (hlegal : member.Legal N elems) :
    member.Succeeds true elems (ofList elems : ArrayStackGeneric T N) := by
  cases member with
  | emplaceBack val => exact ⟨_, _, Call.exec_bind_ok (exec_emplaceBack elems val), List.Perm.refl _⟩
  | pop =>
    obtain ⟨elems, val, rfl⟩ := (List.eq_nil_or_concat' elems).resolve_left hlegal
    refine ⟨_, _, Call.exec_bind_ok (exec_popDestroyed elems val), ?_⟩
    rw [Member.removes, List.getLast?_concat]
    exact List.Perm.refl _
  | top => exact ⟨_, _, Call.exec_bind_ok (exec_top elems), List.Perm.refl _⟩
  | empty => exact ⟨_, _, Call.exec_bind_ok (exec_empty elems), List.Perm.refl _⟩
  | full => exact ⟨_, _, Call.exec_bind_ok (exec_full elems hfits), List.Perm.refl _⟩
  | size => exact ⟨_, _, rfl, List.Perm.refl _⟩
  | clear => exact ⟨_, _, exec_clearDestroyed elems, (List.reverse_perm elems).map some⟩
  | destructor => exact ⟨_, _, exec_clearDestroyed elems, (List.reverse_perm elems).map some⟩

section Enabled

variable {elems : List T} {member : Member T}

/-- With assertions enabled a call aborts where they do not hold, before it does anything. -/
theorem Member.exec_of_not_asserted (hassert : ¬ member.Asserted N elems) :
    (member.call false).exec (ofList elems : ArrayStackGeneric T N) =
      (.error .assertion, ofList elems) := by
  cases member with
  | emplaceBack val => exact Call.exec_bind_error (Call.exec_bind_error (exec_assertNot_full elems))
  | pop =>
    have hpop : (ArrayStackGeneric.pop false).exec (ofList elems : ArrayStackGeneric T N) =
        (.error .assertion, ofList elems) :=
      Call.exec_bind_error (exec_assertNot_empty elems)
    apply Call.exec_bind_error
    rw [popDestroyed, Call.exec_get_bind, Call.exec_bind_error hpop]
  | top => exact Call.exec_bind_error (Call.exec_bind_error (exec_assertNot_empty elems))
  | empty => exact Call.exec_bind_error ((exec_empty_checked elems).trans (if_neg hassert))
  | full => exact Call.exec_bind_error ((exec_full_checked elems).trans (if_neg hassert))
  | size => exact absurd trivial hassert
  | clear => exact (exec_clearDestroyed_checked elems).trans (if_neg hassert)
  | destructor => exact (exec_clearDestroyed_checked elems).trans (if_neg hassert)

/-- Where they hold the call goes through. -/
theorem Member.succeeds_of_asserted (hassert : member.Asserted N elems) :
    member.Succeeds false elems (ofList elems : ArrayStackGeneric T N) := by
  cases member with
  | emplaceBack val => exact hassert.elim
  | pop => exact hassert.elim
  | top => exact hassert.elim
  | empty =>
    have hempty := (exec_empty_checked (N := N) elems).trans (if_pos hassert)
    exact ⟨_, _, Call.exec_bind_ok hempty, List.Perm.refl _⟩
  | full =>
    have hfull := (exec_full_checked (N := N) elems).trans (if_pos hassert)
    exact ⟨_, _, Call.exec_bind_ok hfull, List.Perm.refl _⟩
  | size => exact ⟨_, _, rfl, List.Perm.refl _⟩
  | clear =>
    obtain rfl := hassert
    exact ⟨_, _, exec_clearDestroyed_checked [], List.Perm.refl _⟩
  | destructor =>
    obtain rfl := hassert
    exact ⟨_, _, exec_clearDestroyed_checked [], List.Perm.refl _⟩

theorem Member.succeeds_iff (hfits : elems.length ≤ N.toNat) (hlegal : member.Legal N elems)
    (ndebug : Bool) :
    member.Succeeds ndebug elems (ofList elems : ArrayStackGeneric T N) ↔
      ndebug = true ∨ member.Asserted N elems := by
  cases ndebug with
  | true => exact iff_of_true (succeeds_ndebug hfits hlegal) (Or.inl rfl)
  | false =>
    rw [or_iff_right Bool.false_ne_true]
    refine ⟨?_, succeeds_of_asserted⟩
    rintro ⟨destroyed, after, hexec, _⟩
    by_contra hassert
    rw [exec_of_not_asserted hassert] at hexec
    cases hexec

end Enabled

/-- Whatever legal operations a stack has gone through, a legal call fails no assertion
and destroys each element that it is to destroy once exactly when assertions are
disabled or those that the call evaluates hold: never for a push, a pop or `top`, for
`full` on a full stack, for `empty`, `clear` and the destructor on an empty one. -/
theorem member_succeeds_iff (operations : List (Operation T)) (elems : List T)
    (hreached : run (Operation.apply N) [] operations = some elems) (member : Member T)
    (hlegal : member.Legal N elems) (ndebug : Bool) :
    ∃ stack, run perform (construct : ArrayStackGeneric T N) operations = some stack ∧
      (member.Succeeds ndebug elems stack ↔ ndebug = true ∨ member.Asserted N elems) := by
  obtain ⟨hrun, hfits⟩ := run_perform hreached
  exact ⟨_, hrun, Member.succeeds_iff hfits hlegal ndebug⟩

/-- The destructor of a stack with two elements, with assertions disabled. -/
theorem member_succeeds_destructor :
    ∃ stack, run perform (construct : ArrayStackGeneric Nat 2) [.emplaceBack 7, .emplaceBack 8] = some stack ∧
      (Member.destructor.Succeeds true [7, 8] stack ↔ true = true ∨ Member.destructor.Asserted 2 [7, 8]) :=
  member_succeeds_iff (N := 2) [.emplaceBack 7, .emplaceBack 8] [7, 8] rfl .destructor trivial true

/-- The first push onto a new stack aborts, and so does the destructor of a stack with
an element. -/
theorem not_succeeds_firstPush :
    (Member.emplaceBack 7).Legal 64 ([] : List Nat) ∧
      ((Member.emplaceBack 7).call false).exec (construct : ArrayStackGeneric Nat 64) =
        (.error .assertion, construct) ∧
      ¬ (Member.emplaceBack 7).Succeeds false [] (construct : ArrayStackGeneric Nat 64) ∧
      ¬ Member.destructor.Succeeds false [7] (ofList [7] : ArrayStackGeneric Nat 64) := by
  have hfirst : 0 < (64 : UInt64).toNat := by decide
  have hpush : (Member.emplaceBack 7).Succeeds false [] (ofList [] : ArrayStackGeneric Nat 64) ↔
      false = true ∨ (Member.emplaceBack 7).Asserted 64 [] := by
    apply Member.succeeds_iff
    · exact Nat.zero_le _
    · exact hfirst
  have hdestructor : Member.destructor.Succeeds false [7] (ofList [7] : ArrayStackGeneric Nat 64) ↔
      false = true ∨ Member.destructor.Asserted 64 [7] := by
    apply Member.succeeds_iff
    · exact hfirst
    · trivial
  rw [← ofList_nil]
  exact ⟨hfirst, rfl, by simp [hpush, Member.Asserted], by simp [hdestructor, Member.Asserted]⟩

end tupl.pvt.ArrayStackGeneric
