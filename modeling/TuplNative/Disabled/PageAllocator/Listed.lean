import Mathlib.Data.List.Nodup
import TuplNative.Disabled.PageAllocator
import TuplNative.LinkedList

namespace tupl.pvt.disabled.PageAllocator

variable {Node : Type} [DecidableEq Node]

/-- The dirty nodes in their order, as the pointers lay them out. -/
structure Listed (allocator : PageAllocator Node) (nodes : List Node) : Prop where
  nodup : nodes.Nodup
  first : allocator.mFirstDirty = nodes.head?
  last : allocator.mLastDirty = nodes.getLast?
  linked : Segment allocator.nextDirty allocator.prevDirty none nodes none
  unlisted : ∀ node ∉ nodes, allocator.nextDirty node = none ∧ allocator.prevDirty node = none
  flush : ∀ node, allocator.mFlushNext = some node → node ∈ nodes

/-- The nodes from the flush iterator on. -/
def pending (nodes : List Node) : Option Node → List Node
  | none => []
  | some node => nodes.dropWhile fun other => decide (other ≠ node)

/-- The list with one node moved to its end, or added there. -/
def movedLast (nodes : List Node) (node : Node) : List Node :=
  nodes.filter (fun other => decide (other ≠ node)) ++ [node]

theorem filter_ne_of_notMem {nodes : List Node} {node : Node} (h : node ∉ nodes) :
    nodes.filter (fun other => decide (other ≠ node)) = nodes := by
  apply List.filter_eq_self.mpr
  intro other hmem
  apply decide_eq_true
  rintro rfl
  exact h hmem

theorem movedLast_of_notMem {nodes : List Node} {node : Node} (h : node ∉ nodes) :
    movedLast nodes node = nodes ++ [node] := by
  rw [movedLast, filter_ne_of_notMem h]

theorem movedLast_append {before after : List Node} {node : Node}
    (hnodup : (before ++ node :: after).Nodup) :
    movedLast (before ++ node :: after) node = before ++ after ++ [node] := by
  obtain ⟨hbefore, hafter⟩ := notMem_of_nodup_middle hnodup
  rw [movedLast, List.filter_append, filter_ne_of_notMem hbefore, List.filter_cons_of_neg (by simp),
    filter_ne_of_notMem hafter]

theorem pending_append {before after : List Node} {node : Node} (hbefore : node ∉ before) :
    pending (before ++ node :: after) (some node) = node :: after := by
  rw [pending, List.dropWhile_append_of_pos, List.dropWhile_cons_of_neg (by simp)]
  intro other hmem
  apply decide_eq_true
  rintro rfl
  exact hbefore hmem

/-- The iterator walks over the pending nodes. -/
theorem Listed.follows_pending {allocator : PageAllocator Node} {nodes : List Node}
    (h : Listed allocator nodes) :
    Follows allocator.nextDirty allocator.mFlushNext (pending nodes allocator.mFlushNext) := by
  cases hflush : allocator.mFlushNext with
  | none => exact .nil
  | some node =>
    obtain ⟨before, after, rfl⟩ := List.append_of_mem (h.flush node hflush)
    rw [pending_append (notMem_of_nodup_middle h.nodup).1]
    exact (Segment.append_iff.mp h.linked).2.follows

/-- Leaving a node out does not change where the iterator stands on another one. -/
theorem filter_pending {node other : Node} (hne : other ≠ node) (nodes : List Node) :
    (pending nodes (some other)).filter (fun a => decide (a ≠ node)) =
      pending (nodes.filter fun a => decide (a ≠ node)) (some other) := by
  induction nodes with
  | nil => rfl
  | cons first nodes ih =>
    by_cases hfirst : first = other
    · subst hfirst
      have hstop : ∀ rest : List Node, pending (first :: rest) (some first) = first :: rest := by
        intro rest
        exact pending_append List.not_mem_nil
      rw [hstop, List.filter_cons_of_pos (by simpa using hne), hstop]
    · have hdrop : ∀ rest : List Node, pending (first :: rest) (some other) = pending rest (some other) := by
        intro rest
        rw [pending, pending, List.dropWhile_cons_of_pos (by simpa using hfirst)]
      rw [hdrop, ih]
      by_cases hnode : first = node
      · rw [List.filter_cons_of_neg (by simpa using hnode)]
      · rw [List.filter_cons_of_pos (by simpa using hnode), hdrop]

/-- An iterator that is not on the node that is moved keeps its place among the
others. -/
theorem pending_movedLast_of_ne {flush : Option Node} {node : Node} (hflush : flush ≠ some node)
    (nodes : List Node) :
    (pending (movedLast nodes node) flush).filter (fun other => decide (other ≠ node)) =
      (pending nodes flush).filter (fun other => decide (other ≠ node)) := by
  cases flush with
  | none => rfl
  | some other =>
    have hne : other ≠ node := fun heq => hflush (congrArg some heq)
    have hothers : (movedLast nodes node).filter (fun a => decide (a ≠ node)) =
        nodes.filter fun a => decide (a ≠ node) := by
      rw [movedLast, List.filter_append, List.filter_filter]
      simp
    rw [filter_pending hne, filter_pending hne, hothers]

/-- Where the flush iterator goes when a node is moved to the end: over the node, if
it is there. -/
theorem pending_movedLast {before after : List Node} {node : Node}
    (hnodup : (before ++ node :: after).Nodup) (flush : Option Node) :
    (pending (movedLast (before ++ node :: after) node)
        (if flush = some node then after.head? else flush)).filter (fun other => decide (other ≠ node)) =
      (pending (before ++ node :: after) flush).filter (fun other => decide (other ≠ node)) := by
  by_cases hsame : flush = some node
  · subst hsame
    rw [movedLast_append hnodup, if_pos rfl, pending_append (notMem_of_nodup_middle hnodup).1]
    cases after with
    | nil => simp [pending]
    | cons next after =>
      have hnext : next ∉ before := fun hmem =>
        (List.nodup_append.mp hnodup).2.2 next hmem next (List.mem_cons_of_mem _ List.mem_cons_self) rfl
      rw [List.append_assoc, List.cons_append, List.head?_cons, pending_append hnext]
      simp [List.filter_append, List.filter_cons]
  · rw [if_neg hsame]
    exact pending_movedLast_of_ne hsame _

section Dirty

variable {allocator : PageAllocator Node} {before rest : List Node} {node nextNode : Node}

theorem moveLast_exec (node : Node) (next : Option Node) (allocator : PageAllocator Node) :
    (moveLast node next).exec allocator =
      (.ok (), { allocator with
        mLastDirty := some node
        mFlushNext := if allocator.mFlushNext = some node then next else allocator.mFlushNext }) := by
  unfold moveLast
  rw [Call.exec_modify_bind, Call.exec_get_bind]
  by_cases hflush : allocator.mFlushNext = some node
  · rw [if_pos hflush, if_pos hflush]
    rfl
  · rw [if_neg hflush, if_neg hflush]
    rfl

/-- A node without links that is not the last one is linked behind it. -/
theorem dirty_exec_of_unlisted (hnext : allocator.nextDirty node = none)
    (hprev : allocator.prevDirty node = none) (hlast : allocator.mLastDirty ≠ some node)
    (hflush : allocator.mFlushNext ≠ some node) :
    (dirty node).exec allocator =
      (.ok (), match allocator.mLastDirty with
        | none => { allocator with mFirstDirty := some node, mLastDirty := some node }
        | some lastNode => { allocator with
          mLastDirty := some node
          nextDirty := Function.update allocator.nextDirty lastNode (some node)
          prevDirty := Function.update allocator.prevDirty node (some lastNode) }) := by
  unfold dirty
  rw [Call.exec_get_bind, Call.exec_get_bind, hnext, hprev]
  dsimp only
  rw [Call.exec_get_bind, if_neg hlast]
  cases allocator.mLastDirty with
  | none =>
    dsimp only
    rw [Call.exec_modify_bind, moveLast_exec, if_neg hflush]
  | some lastNode =>
    dsimp only
    unfold setPrevDirty setNextDirty
    rw [Call.exec_modify_bind, Call.exec_modify_bind, moveLast_exec, if_neg hflush]

/-- A node that is on no list is put at the end. -/
theorem Listed.dirty_of_notMem {nodes : List Node} (h : Listed allocator nodes) (hout : node ∉ nodes) :
    ∃ after, (dirty node).exec allocator = (.ok (), after) ∧ Listed after (nodes ++ [node]) ∧
      after.mFlushNext = allocator.mFlushNext := by
  obtain ⟨hnext, hprev⟩ := h.unlisted node hout
  have hflush : allocator.mFlushNext ≠ some node := fun hflush => hout (h.flush node hflush)
  have hlast : allocator.mLastDirty ≠ some node := by
    rw [h.last]
    intro hlast
    exact hout (List.mem_of_getLast? hlast)
  have hexec := dirty_exec_of_unlisted hnext hprev hlast hflush
  rw [h.last] at hexec
  rcases List.eq_nil_or_concat' nodes with rfl | ⟨lower, lastNode, rfl⟩
  · refine ⟨_, hexec, ⟨List.nodup_singleton node, rfl, rfl, ⟨hprev, hnext, trivial⟩, ?_, ?_⟩, rfl⟩
    · intro other hother
      exact h.unlisted other List.not_mem_nil
    · intro other hother
      exact absurd (h.flush other hother) List.not_mem_nil
  · have hfresh := (notMem_of_nodup_middle h.nodup).1
    rw [List.getLast?_concat] at hexec
    refine ⟨_, hexec, ⟨?_, ?_, ?_, h.linked.concat hfresh hout hnext, ?_, ?_⟩, rfl⟩
    · rw [← List.concat_eq_append]
      exact h.nodup.concat hout
    · rw [List.head?_append_of_ne_nil _ (by simp)]
      exact h.first
    · rw [List.getLast?_concat]
    · intro other hother
      rw [List.mem_append, not_or, List.mem_singleton] at hother
      obtain ⟨hothernext, hotherprev⟩ := h.unlisted other hother.1
      have hlastNode : other ≠ lastNode := by
        rintro rfl
        exact hother.1 (List.mem_append_right _ List.mem_cons_self)
      exact ⟨(Function.update_of_ne hlastNode _ _).trans hothernext,
        (Function.update_of_ne hother.2 _ _).trans hotherprev⟩
    · intro other hother
      exact List.mem_append_left _ (h.flush other hother)

/-- An iterator that steps over a node stays on the list. -/
theorem Listed.flush_moved {nodes : List Node} (h : Listed allocator nodes) {next : Option Node}
    (hnext : ∀ other, next = some other → other ∈ nodes) :
    ∀ other, (if allocator.mFlushNext = some node then next else allocator.mFlushNext) = some other →
      other ∈ nodes := by
  intro other hother
  by_cases hflush : allocator.mFlushNext = some node
  · rw [if_pos hflush] at hother
    exact hnext other hother
  · rw [if_neg hflush] at hother
    exact h.flush other hother

/-- The last node stays where it is. The only one is left alone altogether. -/
theorem Listed.dirty_of_last (h : Listed allocator (before ++ [node])) :
    ∃ after, (dirty node).exec allocator = (.ok (), after) ∧ Listed after (before ++ [node]) ∧
      after.nextDirty = allocator.nextDirty ∧
      after.mFlushNext =
        (if allocator.mFlushNext = some node ∧ before ≠ [] then none else allocator.mFlushNext) := by
  obtain ⟨_, hprev, hnext, _⟩ := Segment.append_iff.mp h.linked
  have hlast : allocator.mLastDirty = some node := by rw [h.last, List.getLast?_concat]
  rw [List.head?_nil, Option.none_or] at hnext
  rw [Option.or_none] at hprev
  unfold dirty
  rw [Call.exec_get_bind, Call.exec_get_bind, hnext, hprev]
  rcases List.eq_nil_or_concat' before with rfl | ⟨lower, prevNode, rfl⟩
  · refine ⟨allocator, ?_, h, rfl, ?_⟩
    · rw [List.getLast?_nil]
      dsimp only
      rw [Call.exec_get_bind, if_pos hlast]
      rfl
    · rw [if_neg (fun hboth => hboth.2 rfl)]
  · refine ⟨{ allocator with
      mLastDirty := some node
      mFlushNext := if allocator.mFlushNext = some node then none else allocator.mFlushNext },
      ?_, ?_, rfl, ?_⟩
    · rw [List.getLast?_concat]
      dsimp only
      rw [moveLast_exec]
    · refine ⟨h.nodup, h.first, ?_, h.linked, h.unlisted, h.flush_moved ?_⟩
      · rw [List.getLast?_concat]
      · intro other hother
        cases hother
    · dsimp only
      by_cases hflush : allocator.mFlushNext = some node
      · rw [if_pos hflush, if_pos ⟨hflush, by simp⟩]
      · rw [if_neg hflush, if_neg fun hboth => hflush hboth.1]

/-- A node with a next one is unlinked from its neighbours and linked behind the
last node. -/
theorem dirty_exec_of_next {prev : Option Node} {lastNode : Node}
    (hnext : allocator.nextDirty node = some nextNode) (hprev : allocator.prevDirty node = prev)
    (hlast : allocator.mLastDirty = some lastNode) :
    (dirty node).exec allocator =
      (.ok (), {
        mFirstDirty := prev.elim (some nextNode) fun _ => allocator.mFirstDirty
        mLastDirty := some node
        mFlushNext := if allocator.mFlushNext = some node then some nextNode else allocator.mFlushNext
        nextDirty := Function.update (Function.update (prev.elim allocator.nextDirty fun prevNode =>
          Function.update allocator.nextDirty prevNode (some nextNode)) node none) lastNode (some node)
        prevDirty := Function.update (Function.update allocator.prevDirty nextNode prev) node
          (some lastNode) }) := by
  unfold dirty
  rw [Call.exec_get_bind, Call.exec_get_bind, hnext, hprev]
  dsimp only
  unfold setPrevDirty setNextDirty
  rw [Call.exec_modify_bind]
  cases prev with
  | none =>
    dsimp only
    rw [Call.exec_modify_bind, Call.exec_modify_bind, Call.exec_get_bind, Call.exec_modify_bind,
      Call.exec_get_bind, hlast, exec_dereference_bind, Call.exec_modify_bind, moveLast_exec]
    rfl
  | some prevNode =>
    dsimp only
    rw [Call.exec_modify_bind, Call.exec_modify_bind, Call.exec_get_bind, Call.exec_modify_bind,
      Call.exec_get_bind, hlast, exec_dereference_bind, Call.exec_modify_bind, moveLast_exec]
    rfl

/-- Moving a node within the list writes to no link of a node that is not on it. -/
theorem Listed.unlisted_moved {lastNode other : Node}
    (h : Listed allocator (before ++ node :: nextNode :: rest))
    (hlast : lastNode ∈ before ++ node :: nextNode :: rest)
    (hother : other ∉ before ++ node :: nextNode :: rest) :
    Function.update (Function.update (before.getLast?.elim allocator.nextDirty fun prevNode =>
        Function.update allocator.nextDirty prevNode (some nextNode)) node none) lastNode (some node) other =
          none ∧
      Function.update (Function.update allocator.prevDirty nextNode before.getLast?) node (some lastNode)
        other = none := by
  obtain ⟨hothernext, hotherprev⟩ := h.unlisted other hother
  have hlastNode : other ≠ lastNode := by
    rintro rfl
    exact hother hlast
  have hnode : other ≠ node := by
    rintro rfl
    exact hother (List.mem_append_right _ List.mem_cons_self)
  have hnextNode : other ≠ nextNode := by
    rintro rfl
    exact hother (List.mem_append_right _ (List.mem_cons_of_mem _ List.mem_cons_self))
  constructor
  · rw [Function.update_of_ne hlastNode, Function.update_of_ne hnode]
    cases hprevNode : before.getLast? with
    | none => exact hothernext
    | some prevNode =>
      refine (Function.update_of_ne ?_ _ _).trans hothernext
      rintro rfl
      exact hother (List.mem_append_left _ (List.mem_of_getLast? hprevNode))
  · rw [Function.update_of_ne hnode, Function.update_of_ne hnextNode]
    exact hotherprev

/-- Any other node is taken out of the list and put at its end. -/
theorem Listed.dirty_of_next (h : Listed allocator (before ++ node :: nextNode :: rest)) :
    ∃ after, (dirty node).exec allocator = (.ok (), after) ∧
      Listed after (before ++ nextNode :: rest ++ [node]) ∧
      after.mFlushNext =
        (if allocator.mFlushNext = some node then some nextNode else allocator.mFlushNext) := by
  obtain ⟨_, hprev, hnext, _⟩ := Segment.append_iff.mp h.linked
  rw [Option.or_none] at hprev
  rw [List.head?_cons, Option.some_or] at hnext
  obtain ⟨upper, lastNode, hupper⟩ := (List.eq_nil_or_concat' (nextNode :: rest)).resolve_left (by simp)
  have hlast : allocator.mLastDirty = some lastNode := by
    rw [h.last, hupper, ← List.cons_append, ← List.append_assoc, List.getLast?_concat]
  have hremaining : (before ++ nextNode :: rest).Nodup :=
    h.nodup.sublist (List.Sublist.append_left (List.sublist_cons_self _ _) _)
  have hout : node ∉ before ++ nextNode :: rest := (List.nodup_cons.mp (List.nodup_middle.mp h.nodup)).1
  have hmem : ∀ other, other ∈ before ++ upper ++ [lastNode] ++ [node] ↔
      other ∈ before ++ node :: nextNode :: rest := by
    intro other
    rw [List.append_assoc before, ← hupper, List.append_assoc, List.mem_append, List.mem_append,
      List.mem_append, List.mem_singleton, List.mem_cons (b := node), or_comm (b := other = node)]
  have hlinked := (h.linked.unlink h.nodup).update_next hout none
  rw [hupper, ← List.append_assoc] at hlinked hout hremaining ⊢
  have hfresh := (notMem_of_nodup_middle hremaining).1
  have hconcat := hlinked.concat hfresh hout (Function.update_self _ _ _)
  refine ⟨_, dirty_exec_of_next hnext hprev hlast, ⟨?_, ?_, ?_, hconcat, ?_, ?_⟩, rfl⟩
  · rw [← List.concat_eq_append]
    exact hremaining.concat hout
  · dsimp only
    rcases List.eq_nil_or_concat' before with rfl | ⟨lower, prevNode, rfl⟩
    · rw [List.nil_append, ← hupper]
      rfl
    · rw [List.getLast?_concat, Option.elim_some, h.first]
      simp [List.head?_append]
  · rw [List.getLast?_concat]
  · intro other hother
    rw [hmem] at hother
    have hlastNode : lastNode ∈ before ++ node :: nextNode :: rest :=
      (hmem _).mp (List.mem_append_left _ (List.mem_append_right _ List.mem_cons_self))
    exact h.unlisted_moved hlastNode hother
  · intro other hother
    rw [hmem]
    refine h.flush_moved ?_ other hother
    intro other hsame
    cases hsame
    exact List.mem_append_right _ (List.mem_cons_of_mem _ List.mem_cons_self)

/-- Dirtying a node moves it to the end of the list, and takes no other node out of
those that are to be flushed. -/
theorem Listed.dirty {nodes : List Node} (h : Listed allocator nodes) (node : Node) :
    ∃ after, (PageAllocator.dirty node).exec allocator = (.ok (), after) ∧
      Listed after (movedLast nodes node) ∧
      (pending (movedLast nodes node) after.mFlushNext).filter (fun other => decide (other ≠ node)) =
        (pending nodes allocator.mFlushNext).filter (fun other => decide (other ≠ node)) := by
  by_cases hin : node ∈ nodes
  · obtain ⟨before, upper, rfl⟩ := List.append_of_mem hin
    have hpending := pending_movedLast h.nodup allocator.mFlushNext
    have hmoved := movedLast_append h.nodup
    cases upper with
    | nil =>
      rw [List.append_nil] at hmoved
      obtain ⟨after, hexec, hlisted, _, hflush⟩ := h.dirty_of_last
      refine ⟨after, hexec, by rwa [hmoved], ?_⟩
      by_cases hempty : before = []
      · rw [hflush, if_neg fun hboth => hboth.2 hempty, hmoved]
      · have hsame : after.mFlushNext =
            if allocator.mFlushNext = some node then none else allocator.mFlushNext := by
          rw [hflush]
          simp only [hempty, ne_eq, not_false_eq_true, and_true]
        rw [hsame]
        exact hpending
    | cons nextNode rest =>
      obtain ⟨after, hexec, hlisted, hflush⟩ := h.dirty_of_next
      refine ⟨after, hexec, by rwa [hmoved], ?_⟩
      rw [hflush]
      exact hpending
  · obtain ⟨after, hexec, hlisted, hflush⟩ := h.dirty_of_notMem hin
    have hother : allocator.mFlushNext ≠ some node := fun hsame => hin (h.flush node hsame)
    refine ⟨after, hexec, by rwa [movedLast_of_notMem hin], ?_⟩
    rw [hflush]
    exact pending_movedLast_of_ne hother nodes

theorem Listed.after_dirty {nodes : List Node} {after : PageAllocator Node} (h : Listed allocator nodes)
    (hexec : (PageAllocator.dirty node).exec allocator = (.ok (), after)) :
    Listed after (movedLast nodes node) ∧
      (pending (movedLast nodes node) after.mFlushNext).filter (fun other => decide (other ≠ node)) =
        (pending nodes allocator.mFlushNext).filter (fun other => decide (other ≠ node)) := by
  obtain ⟨_, hexec', hafter⟩ := h.dirty node
  obtain rfl := (Prod.mk.inj (hexec.symm.trans hexec')).2
  exact hafter

end Dirty

end tupl.pvt.disabled.PageAllocator
