import Mathlib.Algebra.Order.Ring.Int
import TuplNative.ArrayStackGeneric.Stack

namespace tupl.pvt.ArrayStackGeneric

variable {T : Type} {N : UInt64}

/-- `sizeof(std::aligned_storage<sizeof(T), alignof(T)>)`. The class is empty, and only
its member `type` has the size of an element. -/
def alignedStorageSize : Nat := 1

/-- `sizeof(mElems)`. -/
def storageSize (N : UInt64) : Nat := N.toNat * alignedStorageSize

/-- The bytes of a slot, which is addressed in units of `sizeof(T)`, lie within the array. -/
def Inside (sizeofT : Nat) (N : UInt64) (slot : Int) : Prop :=
  0 ≤ slot * sizeofT ∧ (slot + 1) * sizeofT ≤ storageSize N

/-- The slot that `emplaceBack` writes to. -/
def insAt (stack : ArrayStackGeneric T N) : Int := stack.mTop + 1

/-- A push or a pop. -/
inductive Access (T : Type) where
  | emplaceBack (val : T)
  | pop

/-- A push onto a stack whose `full()` is false, or a pop, with assertions disabled. -/
def access (stack : ArrayStackGeneric T N) : Access T → Option (ArrayStackGeneric T N)
  | .emplaceBack val =>
    match (full true).exec stack with
    | (.ok false, stack) => some ((emplaceBack true val).exec stack).2
    | _ => none
  | .pop => some ((pop true).exec stack).2

/-- A push writes to its slot and to no other one. -/
theorem emplaceBack_writes (stack : ArrayStackGeneric T N) (val : T) {slot : Int}
    (hslot : slot ≠ stack.insAt) :
    ((emplaceBack true val).exec stack).2.mElems stack.insAt = some val ∧
      ((emplaceBack true val).exec stack).2.mElems slot = stack.mElems slot :=
  ⟨Function.update_self _ _ _, Function.update_of_ne hslot _ _⟩

/-- The push stays within the storage. -/
def WritesInside (sizeofT : Nat) (stack : ArrayStackGeneric T N) : Access T → Prop
  | .emplaceBack _ => Inside sizeofT N stack.insAt
  | .pop => True

/-- The pushes less the pops. -/
def held : List (Access T) → Int
  | [] => 0
  | .emplaceBack _ :: accesses => held accesses + 1
  | .pop :: accesses => held accesses - 1

theorem held_append (done accesses : List (Access T)) :
    held (done ++ accesses) = held done + held accesses := by
  induction done with
  | nil => rw [List.nil_append, held, Int.zero_add]
  | cons first done ih =>
    rw [List.cons_append]
    cases first with
    | emplaceBack val =>
      rw [held, held, ih]
      omega
    | pop =>
      rw [held, held, ih]
      omega

/-- A push that goes through finds a stack that is not full. -/
theorem access_emplaceBack_eq_some {stack stack' : ArrayStackGeneric T N} {val : T}
    (hstep : access stack (.emplaceBack val) = some stack') :
    stack' = ((emplaceBack true val).exec stack).2 := by
  have hfull : (full true).exec stack = (.ok (decide (stack.mTop ≥ N.toNat - 1)), stack) := rfl
  rw [access, hfull] at hstep
  cases hvalue : decide (stack.mTop ≥ N.toNat - 1) with
  | true =>
    rw [hvalue] at hstep
    cases hstep
  | false =>
    rw [hvalue] at hstep
    exact (Option.some.inj hstep).symm

/-- The next slot is the number of elements held. -/
theorem insAt_eq_held (accesses : List (Access T)) (stack : ArrayStackGeneric T N)
    (hrun : run access construct accesses = some stack) : stack.insAt = held accesses := by
  apply run.invariant (fun done (stack : ArrayStackGeneric T N) => stack.insAt = held done) rfl _ accesses stack
    (fun _ _ _ _ _ _ _ => trivial) hrun
  intro done input stack stack' hinv (_ : True) hstep
  rw [held_append]
  unfold insAt at hinv ⊢
  cases input with
  | emplaceBack val =>
    rw [access_emplaceBack_eq_some hstep]
    change stack.mTop + 1 + 1 = held done + (0 + 1)
    omega
  | pop =>
    obtain rfl := Option.some.inj hstep
    change stack.mTop - 1 + 1 = held done + (0 - 1)
    omega

theorem inside_iff {sizeofT : Nat} (hsize : 1 ≤ sizeofT) (slot : Int) :
    Inside sizeofT N slot ↔ 0 ≤ slot ∧ slot < (N.toNat / sizeofT : Nat) := by
  have hpos : (0 : Int) < sizeofT := by omega
  unfold Inside storageSize alignedStorageSize
  rw [Nat.mul_one, Int.natCast_div, ← Int.add_one_le_iff, Int.le_ediv_iff_mul_le hpos]
  exact and_congr_left fun _ => mul_nonneg_iff_of_pos_right hpos

/-- In a sequence of pushes and pops in which `full()` is false before each push, every
slot written lies within the storage exactly when each push finds as many elements as
fit behind it, at least none and fewer than `N / sizeof(T)`. -/
theorem writesInside_iff {sizeofT : Nat} (hsize : 1 ≤ sizeofT) (accesses : List (Access T))
    {stack : ArrayStackGeneric T N} (hrun : run access construct accesses = some stack) :
    run.EachStep access (construct : ArrayStackGeneric T N) (WritesInside sizeofT) accesses ↔
      ∀ done val, done ++ [Access.emplaceBack val] <+: accesses →
        0 ≤ held done ∧ held done < (N.toNat / sizeofT : Nat) := by
  constructor
  · intro hinside done val hleading
    obtain ⟨stack', hdone⟩ := run.of_isPrefix hleading hrun
    obtain ⟨before, hbefore, hstep⟩ := run.run_concat_eq_some.mp hdone
    have hslot := hinside done _ hleading before stack' hbefore hstep
    rw [← insAt_eq_held done before hbefore, ← inside_iff hsize]
    exact hslot
  · intro hheld done input hleading before after hbefore _
    cases input with
    | emplaceBack val =>
      have hfits := hheld done val hleading
      rw [← insAt_eq_held done before hbefore, ← inside_iff hsize] at hfits
      exact hfits
    | pop => trivial

/-- Two one-byte elements in two slots. -/
theorem writesInside_bytes :
    run.EachStep access (construct : ArrayStackGeneric Nat 2) (WritesInside 1) [.emplaceBack 7, .emplaceBack 8] ↔
      ∀ done val, done ++ [Access.emplaceBack val] <+: [.emplaceBack 7, .emplaceBack 8] →
        0 ≤ held done ∧ held done < (2 / 1 : Nat) :=
  writesInside_iff (Nat.le_refl _) _ rfl

/-- A cursor's stack has 64 bytes. The eighth push of an eight-byte element fills them,
and the ninth writes past their end. -/
theorem not_writesInside_pointers :
    (run access (construct : ArrayStackGeneric Nat 64) (List.replicate 9 (.emplaceBack 7))).isSome = true ∧
      ¬ run.EachStep access (construct : ArrayStackGeneric Nat 64) (WritesInside 8)
        (List.replicate 9 (.emplaceBack 7)) := by
  refine ⟨rfl, fun hinside => ?_⟩
  have hlast := hinside (List.replicate 8 (.emplaceBack 7)) (.emplaceBack 7) List.prefix_rfl _ _ rfl rfl
  exact absurd ((inside_iff (by decide) _).mp hlast).2 (by decide)

end tupl.pvt.ArrayStackGeneric
