import TuplNative.Disabled.KeyComparator.Search

namespace tupl.pvt.disabled

variable (extractBytes : KeyOffsetPtr → Bytes)

/-- What `lowerBound` says of the pair it returns: the flag tells whether the key
is among those of the range, and the position is then where it is. -/
def Truthful (range : List KeyOffsetPtr) (key : Bytes) (returned : Nat × Bool) : Prop :=
  (returned.2 = true ↔ key ∈ range.map extractBytes) ∧
    (returned.2 = true → (range.map extractBytes)[returned.1]? = some key)

/-- The bounds of the empty search vector are null, so no range passes the last
assertion. -/
theorem lowerBound_asserted (order : Call.ArgumentOrder) (node begin : Nat) (range : List KeyOffsetPtr)
    (key : Bytes) : lowerBound extractBytes false order node begin range key = .error .assertion := by
  unfold lowerBound
  by_cases hpointers : node ≠ 0 ∧ begin ≠ 0 ∧ begin + 2 * range.length ≠ 0 ∧ key.size ≠ 0
  · by_cases hrange : begin < begin + 2 * range.length
    · have hbegin : SearchVector.begin ≤ begin := Nat.zero_le _
      have hend : ¬ begin + 2 * range.length ≤ SearchVector.end := by
        rw [SearchVector.end]
        omega
      dsimp only
      rw [Call.exec_bind_ok (exec_assert false hpointers _), Call.exec_bind_ok (exec_assert false hrange _),
        Call.exec_bind_ok (exec_assert false hbegin _), Call.exec_bind_error (exec_assert_false hend _)]
    · dsimp only
      rw [Call.exec_bind_ok (exec_assert false hpointers _),
        Call.exec_bind_error (exec_assert_false hrange _)]
  · dsimp only
    rw [Call.exec_bind_error (exec_assert_false hpointers _)]

/-- With the assertions compiled out, the position is that of the search in either
order. The flag is that of the search if the search comes first, and otherwise
still the one the comparator starts with. -/
theorem lowerBound_returned (order : Call.ArgumentOrder) (node begin : Nat) {range : List KeyOffsetPtr}
    {key : Bytes} (hsorted : (range.map extractBytes).Pairwise (· < ·))
    (hnonempty : ∀ ptr ∈ range, extractBytes ptr ≠ .empty) (hkey : key ≠ .empty) :
    ∃ position, lowerBound extractBytes true order node begin range key =
        .ok (position, decide (order = .leftFirst ∧ key ∈ range.map extractBytes)) ∧
      (key ∈ range.map extractBytes → (range.map extractBytes)[position]? = some key) := by
  obtain ⟨st, hsearch, passed, refused, hsplit, hposition, hfinal⟩ :=
    KeyComparator.search_exec extractBytes true range key hsorted hnonempty hkey
  have hfound : st.equal = true ↔ key ∈ range.map extractBytes := by
    rw [hfinal.found_iff, hsplit, List.map_append]
  have hflag : ∀ state : State, (State.equal <$> get : Call Failure State Bool).exec state =
      (.ok state.equal, state) := fun _ => rfl
  refine ⟨passed.length, ?_, ?_⟩
  · unfold lowerBound
    dsimp only
    rw [Call.exec_bind_ok (exec_assert_ndebug _ _), Call.exec_bind_ok (exec_assert_ndebug _ _),
      Call.exec_bind_ok (exec_assert_ndebug _ _), Call.exec_bind_ok (exec_assert_ndebug _ _)]
    cases order with
    | leftFirst =>
      rw [Call.exec_arguments_leftFirst hsearch (hflag st), hposition]
      simp [← hfound]
    | rightFirst =>
      rw [Call.exec_arguments_rightFirst (hflag _) hsearch, hposition]
      simp [State.equal, State.construct]
  · intro hmem
    have hhead := hfinal.found.mp (hfound.mpr hmem)
    rw [hsplit, List.map_append, List.getElem?_append_right (by simp), List.length_map, Nat.sub_self,
      ← List.head?_eq_getElem?]
    exact hhead

/-- `lowerBound` returns and reports truthfully just when its assertions are compiled
out and the compiler has the search evaluated before the flag, or the key is not
there to be found. -/
theorem lowerBound_truthful_iff (ndebug : Bool) (order : Call.ArgumentOrder) (node begin : Nat)
    (range : List KeyOffsetPtr) (key : Bytes) (hsorted : (range.map extractBytes).Pairwise (· < ·))
    (hnonempty : ∀ ptr ∈ range, extractBytes ptr ≠ .empty) (hkey : key ≠ .empty) :
    (∃ returned, lowerBound extractBytes ndebug order node begin range key = .ok returned ∧
      Truthful extractBytes range key returned) ↔
    ndebug = true ∧ (order = .leftFirst ∨ key ∉ range.map extractBytes) := by
  cases ndebug with
  | false => simp [lowerBound_asserted]
  | true =>
    obtain ⟨position, hreturned, hposition⟩ :=
      lowerBound_returned extractBytes order node begin hsorted hnonempty hkey
    rw [hreturned]
    constructor
    · rintro ⟨returned, heq, hflag, _⟩
      cases heq
      rw [decide_eq_true_iff] at hflag
      refine ⟨rfl, ?_⟩
      by_cases hmem : key ∈ range.map extractBytes
      · exact Or.inl (hflag.mpr hmem).1
      · exact Or.inr hmem
    · rintro ⟨_, hcondition⟩
      refine ⟨_, rfl, ?_, ?_⟩
      · rw [decide_eq_true_iff]
        constructor
        · exact fun hfound => hfound.2
        · intro hmem
          cases hcondition with
          | inl hfirst => exact ⟨hfirst, hmem⟩
          | inr habsent => exact absurd hmem habsent
      · intro hfound
        exact hposition (of_decide_eq_true hfound).2

theorem lowerBound_truthful_nested :
    ∃ returned, lowerBound KeyComparator.nested true .leftFirst 1 2 [⟨1⟩, ⟨2⟩, ⟨3⟩]
        (KeyComparator.nested ⟨2⟩) = .ok returned ∧
      Truthful KeyComparator.nested [⟨1⟩, ⟨2⟩, ⟨3⟩] (KeyComparator.nested ⟨2⟩) returned :=
  (lowerBound_truthful_iff KeyComparator.nested true .leftFirst 1 2 [⟨1⟩, ⟨2⟩, ⟨3⟩]
    (KeyComparator.nested ⟨2⟩) (by decide) (by decide) (by decide)).mpr ⟨rfl, Or.inl rfl⟩

/-- With the flag read first, a key that is there is reported as absent. -/
theorem not_lowerBound_truthful_flagFirst :
    ([⟨1⟩, ⟨2⟩, ⟨3⟩].map KeyComparator.nested).Pairwise (· < ·) ∧
      lowerBound KeyComparator.nested true .rightFirst 1 2 [⟨1⟩, ⟨2⟩, ⟨3⟩]
        (KeyComparator.nested ⟨2⟩) = .ok (1, false) ∧
      ¬ Truthful KeyComparator.nested [⟨1⟩, ⟨2⟩, ⟨3⟩] (KeyComparator.nested ⟨2⟩) (1, false) := by
  refine ⟨by decide, rfl, ?_⟩
  intro htruthful
  exact absurd (htruthful.1.mpr (by decide)) (by decide)

end tupl.pvt.disabled
