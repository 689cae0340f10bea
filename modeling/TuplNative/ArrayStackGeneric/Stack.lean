import Mathlib.Data.List.Basic
import TuplNative.ArrayStackGeneric
import TuplNative.Run

namespace tupl.pvt.ArrayStackGeneric

variable {T : Type} {N : UInt64}

/-- The stack that holds the elements, the most recently pushed one last. -/
def ofList (elems : List T) : ArrayStackGeneric T N :=
  ⟨elems.length - 1, fun slot => if 0 ≤ slot then elems[slot.toNat]? else none⟩

theorem ofList_nil : (ofList [] : ArrayStackGeneric T N) = construct := by
  refine congrArg₂ ArrayStackGeneric.mk rfl (funext fun slot => ?_)
  split <;> rfl

/-- The top is the slot of the last element. -/
theorem ofList_concat_mTop (elems : List T) (val : T) :
    (ofList (elems ++ [val]) : ArrayStackGeneric T N).mTop = elems.length := by
  change ((elems ++ [val]).length : Int) - 1 = _
  rw [List.length_append, List.length_singleton]
  omega

/-- Above the last element is the slot for a new one. -/
theorem ofList_mTop_succ (elems : List T) :
    (ofList elems : ArrayStackGeneric T N).mTop + 1 = elems.length := by
  change (elems.length : Int) - 1 + 1 = _
  omega

theorem ofList_mElems_concat (elems : List T) (val : T) :
    (ofList (elems ++ [val]) : ArrayStackGeneric T N).mElems =
      Function.update (ofList elems : ArrayStackGeneric T N).mElems elems.length (some val) := by
  funext slot
  by_cases hslot : slot = elems.length
  · subst hslot
    rw [Function.update_self]
    change (if (0 : Int) ≤ elems.length then (elems ++ [val])[(elems.length : Int).toNat]? else none) = _
    rw [if_pos (Int.natCast_nonneg _), Int.toNat_natCast, List.getElem?_concat_length]
  · rw [Function.update_of_ne hslot]
    change (if 0 ≤ slot then (elems ++ [val])[slot.toNat]? else none) =
      if 0 ≤ slot then elems[slot.toNat]? else none
    by_cases hlive : 0 ≤ slot
    · rw [if_pos hlive, if_pos hlive, List.getElem?_append]
      split
      · rfl
      · rw [List.getElem?_eq_none (by simp only [List.length_singleton]; omega),
          List.getElem?_eq_none (by omega)]
    · rw [if_neg hlive, if_neg hlive]

theorem ofList_mElems_length (elems : List T) :
    (ofList elems : ArrayStackGeneric T N).mElems elems.length = none := by
  change (if (0 : Int) ≤ elems.length then elems[(elems.length : Int).toNat]? else none) = none
  rw [if_pos (Int.natCast_nonneg _), Int.toNat_natCast, List.getElem?_eq_none (Nat.le_refl _)]

section Operations

variable (elems : List T) (val : T)

theorem exec_emplaceBack :
    (emplaceBack true val).exec (ofList elems : ArrayStackGeneric T N) =
      (.ok (), ofList (elems ++ [val])) := by
  change (_, ArrayStackGeneric.mk ((ofList elems : ArrayStackGeneric T N).mTop + 1)
    (Function.update (ofList elems : ArrayStackGeneric T N).mElems
      ((ofList elems : ArrayStackGeneric T N).mTop + 1) (some val))) = _
  rw [ofList_mTop_succ, ← ofList_mElems_concat, ← ofList_concat_mTop elems val]

theorem exec_pop :
    (pop true).exec (ofList (elems ++ [val]) : ArrayStackGeneric T N) = (.ok (), ofList elems) := by
  change (_, ArrayStackGeneric.mk ((ofList (elems ++ [val]) : ArrayStackGeneric T N).mTop - 1)
    (Function.update (ofList (elems ++ [val]) : ArrayStackGeneric T N).mElems
      (ofList (elems ++ [val]) : ArrayStackGeneric T N).mTop none)) = _
  rw [ofList_concat_mTop, ofList_mElems_concat, Function.update_idem,
    ← ofList_mElems_length elems, Function.update_eq_self]
  rfl

theorem exec_empty :
    (empty true).exec (ofList elems : ArrayStackGeneric T N) =
      (.ok (decide (elems.length = 0)), ofList elems) := by
  have hempty : ((ofList elems : ArrayStackGeneric T N).mTop ≤ -1) ↔ elems.length = 0 := by
    change (elems.length : Int) - 1 ≤ -1 ↔ _
    omega
  rw [← decide_eq_decide.mpr hempty]
  rfl

theorem exec_full (hfits : elems.length ≤ N.toNat) :
    (full true).exec (ofList elems : ArrayStackGeneric T N) =
      (.ok (decide (elems.length = N.toNat)), ofList elems) := by
  have hfull : ((ofList elems : ArrayStackGeneric T N).mTop ≥ N.toNat - 1) ↔ elems.length = N.toNat := by
    change (elems.length : Int) - 1 ≥ N.toNat - 1 ↔ _
    omega
  rw [← decide_eq_decide.mpr hfull]
  rfl

theorem exec_top :
    (top true).exec (ofList elems : ArrayStackGeneric T N) = (.ok elems.getLast?, ofList elems) := by
  have hlast : (ofList elems : ArrayStackGeneric T N).mElems (ofList elems : ArrayStackGeneric T N).mTop =
      elems.getLast? := by
    cases elems using List.reverseRecOn with
    | nil => rfl
    | append_singleton elems val =>
      rw [ofList_concat_mTop, ofList_mElems_concat, Function.update_self, List.getLast?_concat]
  rw [← hlast]
  rfl

/-- The pointer arithmetic of `size` gives the number of free slots. -/
theorem size_ofList (hfits : elems.length ≤ N.toNat) :
    (ofList elems : ArrayStackGeneric T N).size.toNat = N.toNat - elems.length := by
  have hlt := N.toNat_lt
  have hdifference : (N.toNat : Int) - (elems.length - 1) - 1 = (N.toNat - elems.length : Nat) := by
    omega
  change (UInt64.ofInt ((N.toNat : Int) - (elems.length - 1) - 1)).toNat = _
  rw [hdifference, UInt64.ofInt, UInt64.toNat_ofNat']
  omega

theorem exec_clearLoop {rounds : Nat} (hrounds : elems.length < rounds) :
    (clearLoop true rounds).exec (ofList elems : ArrayStackGeneric T N) = (.ok (), construct) := by
  induction rounds generalizing elems with
  | zero => omega
  | succ rounds ih =>
    rw [clearLoop, Call.exec_bind_ok (exec_empty elems)]
    cases elems using List.reverseRecOn with
    | nil =>
      rw [ofList_nil]
      rfl
    | append_singleton elems val =>
      rw [List.length_append, List.length_singleton] at hrounds ⊢
      rw [if_pos (by simp), Call.exec_bind_ok (exec_pop elems val)]
      exact ih elems (by omega)

theorem exec_clear :
    (clear true).exec (ofList elems : ArrayStackGeneric T N) = (.ok (), construct) := by
  unfold clear
  rw [Call.exec_get_bind, ofList_mTop_succ]
  exact exec_clearLoop elems (by omega)

end Operations

/-- The live objects up to the top, from the first slot on. -/
def contents (stack : ArrayStackGeneric T N) : List T :=
  (List.range (stack.mTop + 1).toNat).filterMap fun (slot : Nat) => stack.mElems slot

theorem contents_ofList (elems : List T) : (ofList elems : ArrayStackGeneric T N).contents = elems := by
  rw [contents, ofList_mTop_succ, Int.toNat_natCast]
  induction elems using List.reverseRecOn with
  | nil => rfl
  | append_singleton elems val ih =>
    have hbelow : ∀ slot ∈ List.range elems.length,
        (ofList (elems ++ [val]) : ArrayStackGeneric T N).mElems (slot : Nat) =
          (ofList elems : ArrayStackGeneric T N).mElems slot := by
      intro slot hslot
      have hlt := List.mem_range.mp hslot
      rw [ofList_mElems_concat, Function.update_of_ne (by omega)]
    rw [List.length_append, List.length_singleton, List.range_succ, List.filterMap_append,
      List.filterMap_congr hbelow, ih, List.filterMap_cons, ofList_mElems_concat, Function.update_self]
    rfl

/-- A bounded stack of the elements, the most recently pushed one last, as its
members show it. -/
structure IsStack (stack : ArrayStackGeneric T N) (elems : List T) : Prop where
  contents : stack.contents = elems
  size : stack.size.toNat = elems.length
  empty : (empty true).exec stack = (.ok (decide (elems.length = 0)), stack)
  full : (full true).exec stack = (.ok (decide (elems.length = N.toNat)), stack)
  top : (top true).exec stack = (.ok elems.getLast?, stack)
  pop : ∀ val, elems.length < N.toNat → (do emplaceBack true val; pop true).exec stack = (.ok (), stack)
  clear : (clear true).exec stack = (.ok (), construct)

/-- The stack is what it should be, but for its `size`. -/
theorem isStack_ofList_iff {elems : List T} (hfits : elems.length ≤ N.toNat) :
    IsStack (ofList elems : ArrayStackGeneric T N) elems ↔ 2 * elems.length = N.toNat := by
  have hsize := size_ofList (N := N) elems hfits
  constructor
  · intro h
    have hcount := h.size
    omega
  · intro hhalf
    refine ⟨contents_ofList elems, by omega, exec_empty elems, exec_full elems hfits, exec_top elems, ?_,
      exec_clear elems⟩
    intro val _
    rw [Call.exec_bind_ok (exec_emplaceBack elems val), exec_pop]

/-- A call that changes a stack. -/
inductive Operation (T : Type) where
  | emplaceBack (val : T)
  | pop
  | clear

/-- What an operation makes of the elements of a stack with `N` slots. A push needs a
free slot, and a pop an element. -/
def Operation.apply (N : UInt64) (elems : List T) : Operation T → Option (List T)
  | .emplaceBack val => if elems.length < N.toNat then some (elems ++ [val]) else none
  | .pop => if elems = [] then none else some elems.dropLast
  | .clear => some []

/-- The stack after the call of an operation, with assertions disabled. -/
def perform (stack : ArrayStackGeneric T N) (operation : Operation T) : Option (ArrayStackGeneric T N) :=
  let call : Call Failure (ArrayStackGeneric T N) Unit := match operation with
    | .emplaceBack val => emplaceBack true val
    | .pop => pop true
    | .clear => clear true
  match call.exec stack with
  | (.ok (), stack) => some stack
  | (.error _, _) => none

/-- Every operation on the elements is the operation on the stack that holds them. -/
theorem perform_ofList {elems elems' : List T} {operation : Operation T}
    (hlegal : operation.apply N elems = some elems') :
    perform (ofList elems : ArrayStackGeneric T N) operation = some (ofList elems') := by
  cases operation with
  | emplaceBack val =>
    obtain ⟨_, heq⟩ := Option.ite_none_right_eq_some.mp hlegal
    obtain rfl := Option.some.inj heq
    unfold perform
    dsimp only
    rw [exec_emplaceBack]
  | pop =>
    obtain ⟨hne, heq⟩ := Option.ite_none_left_eq_some.mp hlegal
    obtain rfl := Option.some.inj heq
    unfold perform
    dsimp only
    rw [← List.dropLast_concat_getLast hne, exec_pop, List.dropLast_concat]
  | clear =>
    obtain rfl := Option.some.inj hlegal
    unfold perform
    dsimp only
    rw [exec_clear, ofList_nil]

theorem Operation.length_le {elems elems' : List T} {operation : Operation T}
    (hlegal : operation.apply N elems = some elems') (hfits : elems.length ≤ N.toNat) :
    elems'.length ≤ N.toNat := by
  cases operation with
  | emplaceBack val =>
    obtain ⟨hroom, heq⟩ := Option.ite_none_right_eq_some.mp hlegal
    obtain rfl := Option.some.inj heq
    rw [List.length_append, List.length_singleton]
    exact hroom
  | pop =>
    obtain ⟨_, heq⟩ := Option.ite_none_left_eq_some.mp hlegal
    obtain rfl := Option.some.inj heq
    rw [List.length_dropLast]
    omega
  | clear =>
    obtain rfl := Option.some.inj hlegal
    exact Nat.zero_le _

/-- After every legal sequence of operations the stack holds the elements. -/
theorem run_perform {operations : List (Operation T)} {elems : List T}
    (hlegal : run (Operation.apply N) [] operations = some elems) :
    run perform (construct : ArrayStackGeneric T N) operations = some (ofList elems) ∧
      elems.length ≤ N.toNat := by
  have hstep : ∀ (stack : ArrayStackGeneric T N) elems operation elems',
      stack = ofList elems ∧ elems.length ≤ N.toNat → Operation.apply N elems operation = some elems' →
        ∃ stack', perform stack operation = some stack' ∧
          stack' = ofList elems' ∧ elems'.length ≤ N.toNat := by
    rintro _ elems operation elems' ⟨rfl, hfits⟩ hlegal
    exact ⟨_, perform_ofList hlegal, rfl, Operation.length_le hlegal hfits⟩
  obtain ⟨stack, hrun, rfl, hfits⟩ :=
    run.simulates _ ⟨ofList_nil.symm, Nat.zero_le _⟩ hstep operations elems hlegal
  exact ⟨hrun, hfits⟩

/-- After every legal sequence of operations the stack is a bounded stack of its
elements exactly when it is half full. It always holds the right elements, but `size`
counts the free slots. -/
theorem isStack_iff_halfFull (operations : List (Operation T)) (elems : List T)
    (hlegal : run (Operation.apply N) [] operations = some elems) :
    ∃ stack, run perform (construct : ArrayStackGeneric T N) operations = some stack ∧
      (IsStack stack elems ↔ 2 * elems.length = N.toNat) := by
  obtain ⟨hrun, hfits⟩ := run_perform hlegal
  exact ⟨_, hrun, isStack_ofList_iff hfits⟩

/-- Five elements are pushed onto a stack of four slots and three of them popped. -/
def fivePushes : List (Operation Nat) :=
  [.emplaceBack 7, .emplaceBack 8, .pop, .emplaceBack 9, .emplaceBack 5, .pop, .emplaceBack 6, .pop]

theorem isStack_twoOfFour :
    ∃ stack, run perform (construct : ArrayStackGeneric Nat 4) fivePushes = some stack ∧
      IsStack stack [7, 9] := by
  have hlegal : run (Operation.apply 4) [] fivePushes = some [7, 9] := rfl
  obtain ⟨stack, hrun, hiff⟩ := isStack_iff_halfFull fivePushes [7, 9] hlegal
  exact ⟨stack, hrun, hiff.mpr rfl⟩

/-- A cursor's stack with one frame reports 63. -/
theorem not_isStack_oneOf64 :
    ∃ stack, run perform (construct : ArrayStackGeneric Nat 64) [.emplaceBack 7] = some stack ∧
      stack.size = 63 ∧ ¬ IsStack stack [7] := by
  refine ⟨_, rfl, rfl, fun h => ?_⟩
  exact absurd h.size (by decide)

end tupl.pvt.ArrayStackGeneric
