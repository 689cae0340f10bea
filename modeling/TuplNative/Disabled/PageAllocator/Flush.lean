import TuplNative.Disabled.PageAllocator.DirtyList

namespace tupl.pvt.disabled.PageAllocator

variable {Node : Type} [DecidableEq Node] {allocator after : PageAllocator Node} {nodes : List Node}
  {node : Node}

/-- The iterator is on the last node of several, which is the one to be dirtied. It
has no next node for the iterator to step to, and it does not move either. -/
def OnLast (node : Node) (allocator : PageAllocator Node) : Prop :=
  allocator.mFlushNext = some node ∧ allocator.mLastDirty = some node ∧ allocator.mFirstDirty ≠ some node

omit [DecidableEq Node] in
/-- A node is both the first and the last one only where it is alone. -/
theorem Listed.first_eq_last_iff {before : List Node} (h : Listed allocator (before ++ [node])) :
    allocator.mFirstDirty = some node ↔ before = [] := by
  rw [h.first]
  constructor
  · intro hfirst
    cases before with
    | nil => rfl
    | cons first before =>
      obtain rfl := Option.some.inj hfirst
      exact absurd List.mem_cons_self (notMem_of_nodup_middle h.nodup).1
  · rintro rfl
    rfl

omit [DecidableEq Node] in
theorem Listed.onLast_iff {before : List Node} (h : Listed allocator (before ++ [node])) :
    OnLast node allocator ↔ allocator.mFlushNext = some node ∧ before ≠ [] := by
  unfold OnLast
  rw [ne_eq, h.first_eq_last_iff, h.last, List.getLast?_concat]
  simp only [true_and, ne_eq]

omit [DecidableEq Node] in
/-- A node with a next one is not the last. -/
theorem Listed.last_ne_of_next {before rest : List Node} {nextNode : Node}
    (h : Listed allocator (before ++ node :: nextNode :: rest)) : allocator.mLastDirty ≠ some node := by
  rw [h.last]
  intro hlast
  have hmem : node ∈ nextNode :: rest := by
    rw [List.getLast?_append_of_ne_nil _ (List.cons_ne_nil _ _), List.getLast?_cons_cons] at hlast
    exact List.mem_of_getLast? hlast
  exact (notMem_of_nodup_middle h.nodup).2 hmem

/-- What a call does to the iterator: on the last of several nodes it is lost, on
another node that is dirtied it steps over it, and elsewhere it stays. -/
theorem Listed.dirty_flushNext (h : Listed allocator nodes)
    (hexec : (PageAllocator.dirty node).exec allocator = (.ok (), after)) :
    (OnLast node allocator → after.mFlushNext = none) ∧
      (¬ OnLast node allocator →
        (allocator.mFlushNext = none ↔ after.mFlushNext = none) ∧
        (allocator.mLastDirty = some node → after.mFlushNext = allocator.mFlushNext)) := by
  by_cases hin : node ∈ nodes
  · obtain ⟨before, upper, rfl⟩ := List.append_of_mem hin
    cases upper with
    | nil =>
      obtain ⟨_, hexec', _, _, hflush⟩ := h.dirty_of_last
      obtain rfl := (Prod.mk.inj (hexec.symm.trans hexec')).2
      rw [h.onLast_iff, hflush]
      constructor
      · intro hlost
        rw [if_pos hlost]
      · intro hkept
        rw [if_neg hkept]
        exact ⟨Iff.rfl, fun _ => rfl⟩
    | cons nextNode rest =>
      obtain ⟨_, hexec', _, hflush⟩ := h.dirty_of_next
      obtain rfl := (Prod.mk.inj (hexec.symm.trans hexec')).2
      have hlast := h.last_ne_of_next
      refine ⟨fun hlost => absurd hlost.2.1 hlast, fun _ => ⟨?_, fun hsame => absurd hsame hlast⟩⟩
      rw [hflush]
      by_cases hon : allocator.mFlushNext = some node
      · rw [if_pos hon, hon]
        exact iff_of_false (Option.some_ne_none _) (Option.some_ne_none _)
      · rw [if_neg hon]
  · obtain ⟨_, hexec', _, hflush⟩ := h.dirty_of_notMem hin
    obtain rfl := (Prod.mk.inj (hexec.symm.trans hexec')).2
    rw [hflush]
    exact ⟨fun hlost => absurd (h.flush node hlost.1) hin, fun _ => ⟨Iff.rfl, fun _ => rfl⟩⟩

/-- From any node of the list the walk reaches the last one. -/
theorem mem_pending_concat {before : List Node} {start : Node} (hstart : start ∈ before ++ [node]) :
    node ∈ pending (before ++ [node]) (some start) := by
  rw [pending]
  induction before with
  | nil =>
    obtain rfl := List.mem_singleton.mp hstart
    simp
  | cons first before ih =>
    rw [List.cons_append] at hstart ⊢
    by_cases hfirst : first = start
    · rw [List.dropWhile_cons_of_neg (by simpa using hfirst)]
      exact List.mem_cons_of_mem _ (List.mem_append_right _ List.mem_cons_self)
    · rw [List.dropWhile_cons_of_pos (by simpa using hfirst)]
      exact ih ((List.mem_cons.mp hstart).resolve_left fun heq => hfirst heq.symm)

/-- What following the links from the flush iterator visits after the call is what it
visited before, together with the node that was dirtied. -/
def KeepsFlush (node : Node) (before after : PageAllocator Node) : Prop :=
  ∃ reached reached', Follows before.nextDirty before.mFlushNext reached ∧
    Follows after.nextDirty after.mFlushNext reached' ∧
    ∀ other, other ∈ reached' ↔ other ∈ reached ∨ other = node

/-- The other nodes that are left to flush stay so, and the one that was dirtied is
the last of the list. It is reached unless the iterator is null. -/
theorem Listed.keepsFlush_iff (h : Listed allocator nodes)
    (hexec : (PageAllocator.dirty node).exec allocator = (.ok (), after)) :
    KeepsFlush node allocator after ↔ after.mFlushNext ≠ none := by
  obtain ⟨hafter, hothers⟩ := h.after_dirty hexec
  constructor
  · rintro ⟨reached, reached', _, hreached', hmem⟩ hnone
    rw [hnone] at hreached'
    obtain rfl := hreached'.unique .nil
    exact List.not_mem_nil ((hmem node).mpr (Or.inr rfl))
  · intro hflush
    refine ⟨_, _, h.follows_pending, hafter.follows_pending, ?_⟩
    intro other
    by_cases hsame : other = node
    · subst hsame
      obtain ⟨start, hstart⟩ := Option.ne_none_iff_exists'.mp hflush
      rw [hstart]
      exact iff_of_true (mem_pending_concat (hafter.flush start hstart)) (Or.inr rfl)
    · have hkeeps : ∀ reached : List Node, other ∈ reached ↔
          other ∈ reached.filter fun other => decide (other ≠ node) := by
        intro reached
        rw [List.mem_filter, decide_eq_true_iff, and_iff_left hsame]
      rw [or_iff_left hsame, hkeeps, hothers, ← hkeeps]

/-- A call keeps every node that awaits the flush, and adds its own, exactly when the
iterator is not on the last of several nodes with this one dirtied again. -/
theorem dirty_keepsFlush_iff (h : Listed allocator nodes) {start : Node}
    (hflush : allocator.mFlushNext = some start) (node : Node) :
    ∃ after, (dirty node).exec allocator = (.ok (), after) ∧
      (KeepsFlush node allocator after ↔ ¬ OnLast node allocator) := by
  obtain ⟨after, hexec, _, _⟩ := h.dirty node
  obtain ⟨hlost, hkept⟩ := h.dirty_flushNext hexec
  refine ⟨after, hexec, ?_⟩
  rw [h.keepsFlush_iff hexec]
  constructor
  · intro hreached hon
    exact hreached (hlost hon)
  · intro hon hnone
    have := (hkept hon).1.mpr hnone
    rw [hflush] at this
    cases this

/-- The first of two nodes is dirtied again while the flush stands at it. -/
theorem dirty_keepsFlush_first :
    ∃ allocator after : PageAllocator Nat, (dirty 1).exec allocator = (.ok (), after) ∧
      (KeepsFlush 1 allocator after ↔ ¬ OnLast 1 allocator) := by
  obtain ⟨after, h⟩ := dirty_keepsFlush_iff (Reachable.listed
    (((Reachable.construct.dirty 1 rfl).dirty 2 rfl).moveFlush (some 1) (by simp))) rfl 1
  exact ⟨_, after, h⟩

/-- The second of two nodes is dirtied again while the flush stands at it, which then
skips it. -/
theorem not_keepsFlush_last :
    ∃ allocator after : PageAllocator Nat, Listed allocator [1, 2] ∧ allocator.mFlushNext = some 2 ∧
      (dirty 2).exec allocator = (.ok (), after) ∧ after.mFlushNext = none ∧
      ¬ KeepsFlush 2 allocator after := by
  have hlisted := Reachable.listed
    (((Reachable.construct.dirty 1 rfl).dirty 2 rfl).moveFlush (some 2) (by simp))
  refine ⟨_, _, hlisted, rfl, rfl, rfl, ?_⟩
  rw [hlisted.keepsFlush_iff rfl]
  exact fun hflush => hflush rfl

end tupl.pvt.disabled.PageAllocator
