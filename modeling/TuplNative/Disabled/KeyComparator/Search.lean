import TuplNative.Disabled.KeyComparator

namespace tupl.pvt.disabled.KeyComparator

/-- What one comparison of different keys may do to the state: it raises a bound to
the size of the prefix that both share, on the side that the other key lies. -/
inductive Compared (l r : Bytes) (st : State) : State → Prop where
  | same (heq : l = r) : Compared l r st { st with mEqual := true }
  | prefixes (hne : l ≠ r) : Compared l r st st
  | lower (size : Nat) (hlt : l < r) (hshared : r.data.take size <+: l.data) (hsize : size < r.data.length) :
    Compared l r st { st with loPrefixSize := size }
  | higher (size : Nat) (hgt : r < l) (hshared : r.data.take size <+: l.data) (hsize : size < r.data.length) :
    Compared l r st { st with hiPrefixSize := size }

/-- A prefix that both byte strings share may be skipped. -/
theorem mismatch_behind_prefix {l r : Bytes} {prefixSize : Nat}
    (hshared : r.data.take prefixSize <+: l.data) (hr : prefixSize < r.data.length) :
    prefixSize + std.mismatch (l.data.extract prefixSize (min l.data.length r.data.length))
      (r.data.drop prefixSize) = std.mismatch l.data r.data := by
  have hsize : (r.data.take prefixSize).length = prefixSize := by
    rw [List.length_take]
    omega
  obtain ⟨lrest, hlsplit⟩ := hshared
  have hskip := std.mismatch_skip (r.data.take prefixSize) lrest (r.data.drop prefixSize)
  rwa [hlsplit, List.take_append_drop, hsize] at hskip

/-- With a prefix skipped that both byte strings share and go on after, the
comparison decides their order. -/
theorem compareLower_exec (ndebug : Bool) {l r : Bytes} {st : State}
    (hshared : r.data.take (min st.loPrefixSize st.hiPrefixSize) <+: l.data)
    (hl : min st.loPrefixSize st.hiPrefixSize < l.data.length)
    (hr : min st.loPrefixSize st.hiPrefixSize < r.data.length) :
    ∃ st', (compareLower ndebug l r).exec st = (.ok (decide (l < r)), st') ∧ Compared l r st st' := by
  unfold compareLower
  rw [Call.exec_get_bind]
  dsimp only
  rw [Call.exec_bind_ok (exec_assert ndebug (lt_min hl hr) st), mismatch_behind_prefix hshared hr]
  clear hshared hl hr
  have hcases := std.mismatched l.data r.data
  obtain ⟨l, _⟩ := l
  obtain ⟨r, _⟩ := r
  dsimp only at hcases ⊢
  generalize std.mismatch l r = position at hcases ⊢
  cases hcases with
  | same =>
    refine ⟨{ st with mEqual := true }, ?_, .same rfl⟩
    rw [if_pos (Nat.min_self _).symm, if_pos rfl, decide_eq_false (Nat.lt_irrefl _),
      decide_eq_false (lt_irrefl _)]
    rfl
  | shorter _ b rest =>
    have hlt := std.lt_append_cons l b rest
    have hlength : l.length < (l ++ b :: rest).length := by simp
    refine ⟨st, ?_, .prefixes fun heq => hlt.ne (congrArg Bytes.data heq)⟩
    rw [if_pos (Nat.min_eq_left hlength.le).symm, if_neg hlength.ne, decide_eq_true hlength]
    rw [decide_eq_true ((Bytes.lt_iff_data_lt _ _).mpr hlt)]
    rfl
  | longer _ a rest =>
    have hgt := std.lt_append_cons r a rest
    have hlength : r.length < (r ++ a :: rest).length := by simp
    refine ⟨st, ?_, .prefixes fun heq => hgt.ne' (congrArg Bytes.data heq)⟩
    rw [if_pos (Nat.min_eq_right hlength.le).symm, if_neg hlength.ne', decide_eq_false hlength.not_gt]
    rw [decide_eq_false fun hlt => hgt.not_gt ((Bytes.lt_iff_data_lt _ _).mp hlt)]
    rfl
  | @lower common a b l r hab =>
    have hlt := std.append_cons_lt common l r hab
    refine ⟨{ st with loPrefixSize := common.length }, ?_, .lower _ hlt ?_ ?_⟩
    · rw [if_neg (by simp), if_pos (by simpa using hab)]
      rw [decide_eq_true ((Bytes.lt_iff_data_lt _ _).mpr hlt)]
      rfl
    · dsimp only
      rw [List.take_left]
      exact List.prefix_append _ _
    · simp
  | @higher common a b l r hba =>
    have hgt := std.append_cons_lt common r l hba
    refine ⟨{ st with hiPrefixSize := common.length }, ?_, .higher _ hgt ?_ ?_⟩
    · rw [if_neg (by simp), if_neg (by simpa using hba.le)]
      rw [decide_eq_false fun hlt => hgt.not_gt ((Bytes.lt_iff_data_lt _ _).mp hlt)]
      rfl
    · dsimp only
      rw [List.take_left]
      exact List.prefix_append _ _
    · simp

/-- A prefix size is that of a prefix which the key shares with one of some byte
strings, or it is still 0. -/
def Shares (key : Bytes) (size : Nat) (others : List Bytes) : Prop :=
  size = 0 ∨ ∃ other ∈ others, key.data.take size <+: other.data ∧ size < key.data.length

theorem Shares.mono {key : Bytes} {size : Nat} {others more : List Bytes} (h : Shares key size others)
    (hsub : others ⊆ more) : Shares key size more := by
  rcases h with hzero | ⟨other, hmem, hshared⟩
  · exact Or.inl hzero
  · exact Or.inr ⟨other, hsub hmem, hshared⟩

/-- What the key shares with something below and with something above, everything
between shares. -/
theorem Shares.between {key between : Bytes} {lo hi : Nat} {below above : List Bytes}
    (hlo : Shares key lo below) (hhi : Shares key hi above) (hbelow : ∀ other ∈ below, other < between)
    (habove : ∀ other ∈ above, between < other) (hkey : key ≠ .empty) (hbetween : between ≠ .empty) :
    key.data.take (min lo hi) <+: between.data ∧
      min lo hi < between.data.length ∧ min lo hi < key.data.length := by
  have hpositive : ∀ bytes : Bytes, bytes ≠ .empty → 0 < bytes.data.length := by
    intro bytes hne
    apply List.length_pos_of_ne_nil
    intro hnil
    exact hne (Bytes.data_injective hnil)
  have hzero : min lo hi = 0 → key.data.take (min lo hi) <+: between.data ∧
      min lo hi < between.data.length ∧ min lo hi < key.data.length := by
    intro hmin
    rw [hmin]
    exact ⟨List.nil_prefix, hpositive between hbetween, hpositive key hkey⟩
  rcases hlo with rfl | ⟨low, hlow, hlowshared, hlowsize⟩
  · exact hzero (Nat.zero_min _)
  rcases hhi with rfl | ⟨high, hhigh, hhighshared, hhighsize⟩
  · exact hzero (Nat.min_zero _)
  have hsize : min lo hi < key.data.length := (Nat.min_le_left _ _).trans_lt hlowsize
  have hlower : key.data.take (min lo hi) <+: low.data :=
    (List.take_prefix_take_left (Nat.min_le_left _ _)).trans hlowshared
  have hupper : key.data.take (min lo hi) <+: high.data :=
    (List.take_prefix_take_left (Nat.min_le_right _ _)).trans hhighshared
  obtain ⟨hleading, hlonger⟩ :=
    std.prefix_of_between hlower hupper (hbelow low hlow) (habove high hhigh)
  rw [List.length_take] at hlonger
  exact ⟨hleading, by omega, hsize⟩

/-- What the search keeps: the bounds hold prefixes that the key shares with keys
passed and with keys ruled out, and the key was found if it is the first one
ruled out. -/
structure Searching (key : Bytes) (below range above : List Bytes) (st : State) : Prop where
  sorted : (below ++ range ++ above).Pairwise (· < ·)
  nonempty : ∀ other ∈ below ++ range ++ above, other ≠ .empty
  passed : ∀ other ∈ below, other < key
  refused : ∀ other ∈ above, key ≤ other
  lo : Shares key st.loPrefixSize below
  hi : Shares key st.hiPrefixSize above
  found : st.equal = true ↔ above.head? = some key

section Middle

variable {key middle : Bytes} {below lower upper above : List Bytes} {st st' : State}

/-- The keys before the middle one are smaller, and the keys behind it greater. -/
theorem Searching.around_middle (h : Searching key below (lower ++ middle :: upper) above st) :
    (∀ other ∈ below ++ lower, other < middle) ∧ (∀ other ∈ upper ++ above, middle < other) := by
  have hwhole : below ++ (lower ++ middle :: upper) ++ above =
      (below ++ lower) ++ middle :: (upper ++ above) := by
    simp
  obtain ⟨_, hupper, hlower⟩ := List.pairwise_append.mp (hwhole ▸ h.sorted)
  exact ⟨fun other hmem => hlower other hmem middle List.mem_cons_self, (List.pairwise_cons.mp hupper).1⟩

/-- A smaller middle key is passed with all before it. -/
theorem Searching.pass (h : Searching key below (lower ++ middle :: upper) above st)
    (hcompared : Compared middle key st st') (hlt : middle < key) :
    Searching key (below ++ lower ++ [middle]) upper above st' := by
  have hwhole : below ++ (lower ++ middle :: upper) ++ above =
      below ++ lower ++ [middle] ++ upper ++ above := by
    simp
  have hsorted := hwhole ▸ h.sorted
  have hnonempty := hwhole ▸ h.nonempty
  have hbelow : below ⊆ below ++ lower ++ [middle] := fun other hmem =>
    List.mem_append_left _ (List.mem_append_left _ hmem)
  have hpassed : ∀ other ∈ below ++ lower ++ [middle], other < key := by
    intro other hmem
    cases List.mem_append.mp hmem with
    | inl hmem => exact (h.around_middle.1 other hmem).trans hlt
    | inr hmem => rwa [List.mem_singleton.mp hmem]
  cases hcompared with
  | same heq => exact absurd heq hlt.ne
  | prefixes hne => exact ⟨hsorted, hnonempty, hpassed, h.refused, h.lo.mono hbelow, h.hi, h.found⟩
  | lower size _ hshared hsize =>
    refine ⟨hsorted, hnonempty, hpassed, h.refused, ?_, h.hi, h.found⟩
    exact Or.inr ⟨middle, List.mem_append_right _ (List.mem_singleton.mpr rfl), hshared, hsize⟩
  | higher size hgt hshared hsize => exact absurd hgt hlt.not_gt

/-- A middle key that is not smaller is ruled out with all behind it. -/
theorem Searching.refuse (h : Searching key below (lower ++ middle :: upper) above st)
    (hcompared : Compared middle key st st') (hnotlt : ¬ middle < key) :
    Searching key below lower (middle :: upper ++ above) st' := by
  have hwhole : below ++ (lower ++ middle :: upper) ++ above =
      below ++ lower ++ (middle :: upper ++ above) := by
    simp
  have hsorted := hwhole ▸ h.sorted
  have hnonempty := hwhole ▸ h.nonempty
  have habove : above ⊆ middle :: upper ++ above := fun other hmem => List.mem_append_right _ hmem
  have hrefused : ∀ other ∈ middle :: upper ++ above, key ≤ other := by
    intro other hmem
    rw [List.cons_append] at hmem
    cases List.mem_cons.mp hmem with
    | inl heq => exact heq ▸ not_lt.mp hnotlt
    | inr hmem => exact (not_lt.mp hnotlt).trans (h.around_middle.2 other hmem).le
  have hnotfound : st.equal ≠ true := by
    intro hequal
    have hmem := List.mem_append_right upper (List.mem_of_head? (h.found.mp hequal))
    exact hnotlt (h.around_middle.2 key hmem)
  have hstill : middle ≠ key → (st.equal = true ↔ (middle :: upper ++ above).head? = some key) := by
    intro hne
    refine ⟨fun hequal => absurd hequal hnotfound, ?_⟩
    intro hhead
    exact absurd (Option.some.inj hhead) hne
  cases hcompared with
  | same heq =>
    refine ⟨hsorted, hnonempty, h.passed, hrefused, h.lo, h.hi.mono habove, ?_⟩
    subst heq
    exact ⟨fun _ => rfl, fun _ => rfl⟩
  | prefixes hne =>
    exact ⟨hsorted, hnonempty, h.passed, hrefused, h.lo, h.hi.mono habove, hstill hne⟩
  | lower size hlt hshared hsize => exact absurd hlt hnotlt
  | higher size hgt hshared hsize =>
    refine ⟨hsorted, hnonempty, h.passed, hrefused, h.lo, ?_, hstill hgt.ne'⟩
    exact Or.inr ⟨middle, List.mem_cons_self, hshared, hsize⟩

/-- The bytes that the bounds let a comparison skip are shared with the middle key. -/
theorem Searching.compareLower (hkey : key ≠ .empty)
    (h : Searching key below (lower ++ middle :: upper) above st) (ndebug : Bool) :
    ∃ st', (KeyComparator.compareLower ndebug middle key).exec st = (.ok (decide (middle < key)), st') ∧
      (middle < key → Searching key (below ++ lower ++ [middle]) upper above st') ∧
      (¬ middle < key → Searching key below lower (middle :: upper ++ above) st') := by
  have hmiddle : middle ≠ .empty := h.nonempty middle (by simp)
  obtain ⟨hsmaller, hgreater⟩ := h.around_middle
  obtain ⟨hshared, hl, hr⟩ :=
    h.lo.between h.hi (fun other hmem => hsmaller other (List.mem_append_left _ hmem))
    (fun other hmem => hgreater other (List.mem_append_right _ hmem)) hkey hmiddle
  obtain ⟨st', hexec, hcompared⟩ := compareLower_exec ndebug hshared hl hr
  exact ⟨st', hexec, h.pass hcompared, h.refuse hcompared⟩

end Middle

/-- The first key that is not less is the searched one if any is. -/
theorem Searching.found_iff {key : Bytes} {passed refused : List Bytes} {st : State}
    (h : Searching key passed [] refused st) : st.equal = true ↔ key ∈ passed ++ refused := by
  rw [h.found]
  constructor
  · intro hhead
    exact List.mem_append_right _ (List.mem_of_head? hhead)
  · intro hmem
    cases List.mem_append.mp hmem with
    | inl hmem => exact absurd (h.passed key hmem) (lt_irrefl key)
    | inr hmem =>
      cases refused with
      | nil => cases hmem
      | cons first rest =>
        have hsorted := h.sorted
        rw [List.append_nil] at hsorted
        rcases List.mem_cons.mp hmem with rfl | hmem
        · rfl
        · have hlt := (List.pairwise_cons.mp (List.pairwise_append.mp hsorted).2.1).1 key hmem
          exact absurd (h.refused first List.mem_cons_self) (not_le.mpr hlt)

variable (extractBytes : KeyOffsetPtr → Bytes) (ndebug : Bool)

/-- The whole search cuts the range into the pointers it passed and those it
refused, with the comparator's bookkeeping about the keys of both. -/
theorem search_exec (ptrs : List KeyOffsetPtr) (key : Bytes)
    (hsorted : (ptrs.map extractBytes).Pairwise (· < ·))
    (hnonempty : ∀ ptr ∈ ptrs, extractBytes ptr ≠ .empty) (hkey : key ≠ .empty) :
    ∃ st, (std.lowerBoundM (fun ptr => lower extractBytes ndebug ptr key) ptrs).exec State.construct =
        (.ok (std.lowerBound (fun ptr => decide (extractBytes ptr < key)) ptrs), st) ∧
      ∃ passed refused, ptrs = passed ++ refused ∧
        passed.length = std.lowerBound (fun ptr => decide (extractBytes ptr < key)) ptrs ∧
        Searching key (passed.map extractBytes) [] (refused.map extractBytes) st := by
  refine std.lowerBoundM_exec (fun ptr => lower extractBytes ndebug ptr key)
    (fun ptr => decide (extractBytes ptr < key))
    (fun below range above st =>
      Searching key (below.map extractBytes) (range.map extractBytes) (above.map extractBytes) st)
    ?_ ptrs State.construct ?_
  · intro below lower middle upper above st hsearching
    rw [List.map_append, List.map_cons] at hsearching
    obtain ⟨st', hcompare, hlower, hhigher⟩ := hsearching.compareLower hkey ndebug
    refine ⟨st', hcompare, ?_, ?_⟩
    · intro hlt
      simpa using hlower (of_decide_eq_true hlt)
    · intro hnotlt
      simpa using hhigher (of_decide_eq_false hnotlt)
  · exact ⟨by simpa using hsorted, by simpa using hnonempty, by simp, by simp, Or.inl rfl, Or.inl rfl, by
      simp [State.equal, State.construct]⟩

/-- `std::lower_bound` with a comparator that skips the prefixes it knows to be
shared finds the position that full comparisons find. No comparison fails its
assertion, and the state tells in the end whether the key is there. -/
theorem lowerBound_skipping (ptrs : List KeyOffsetPtr) (key : Bytes)
    (hsorted : (ptrs.map extractBytes).Pairwise (· < ·))
    (hnonempty : ∀ ptr ∈ ptrs, extractBytes ptr ≠ .empty) (hkey : key ≠ .empty) :
    ∃ st, (std.lowerBoundM (fun ptr => lower extractBytes ndebug ptr key) ptrs).exec State.construct =
        (.ok (std.lowerBound (fun ptr => std.lexicographicalCompare (fun a b => decide (a < b))
          (extractBytes ptr).data key.data) ptrs), st) ∧
      (st.equal = true ↔ key ∈ ptrs.map extractBytes) := by
  have htest : (fun ptr => std.lexicographicalCompare (fun a b => decide (a < b))
      (extractBytes ptr).data key.data) = fun ptr => decide (extractBytes ptr < key) := by
    funext ptr
    rw [std.lexicographicalCompare_lt]
    exact decide_eq_decide.mpr (Bytes.lt_iff_data_lt _ _).symm
  rw [htest]
  obtain ⟨st, hexec, passed, refused, hsplit, _, hfinal⟩ :=
    search_exec extractBytes ndebug ptrs key hsorted hnonempty hkey
  refine ⟨st, hexec, ?_⟩
  rw [hfinal.found_iff, hsplit, List.map_append]

/-- Keys that are prefixes of each other: as many bytes as the offset says. -/
def nested (ptr : KeyOffsetPtr) : Bytes :=
  .fill ptr.mOffset.toNat 97 (ptr.mOffset.toNat_lt.trans (by decide))

theorem lowerBound_skipping_nested :
    ∃ st, (std.lowerBoundM (fun ptr => lower nested false ptr (nested ⟨2⟩))
          [⟨1⟩, ⟨2⟩, ⟨3⟩]).exec State.construct = (.ok 1, st) ∧
      (st.equal = true ↔ nested ⟨2⟩ ∈ [nested ⟨1⟩, nested ⟨2⟩, nested ⟨3⟩]) :=
  lowerBound_skipping nested false [⟨1⟩, ⟨2⟩, ⟨3⟩] (nested ⟨2⟩) (by decide) (by decide) (by decide)

end tupl.pvt.disabled.KeyComparator
