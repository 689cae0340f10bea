import Mathlib.Data.List.Dedup
import TuplNative.Disabled.PageAllocator.Listed

namespace tupl.pvt.disabled.PageAllocator

variable {Node : Type} [DecidableEq Node]

/-- The states that `dirty` calls lead to, with the nodes that were dirtied so far in
the order of the calls. Between two calls the flush iterator may be made null or
moved to a node of the list. -/
inductive Reachable : List Node → PageAllocator Node → Prop where
  | construct : Reachable [] construct
  | dirty {history : List Node} {allocator after : PageAllocator Node} (h : Reachable history allocator)
      (node : Node) (hexec : (dirty node).exec allocator = (.ok (), after)) :
    Reachable (history ++ [node]) after
  | moveFlush {history : List Node} {allocator : PageAllocator Node} (h : Reachable history allocator)
      (target : Option Node) (htarget : ∀ node, target = some node → node ∈ history) :
    Reachable history { allocator with mFlushNext := target }

/-- Of a node that is dirtied again only the last call counts. -/
theorem dedup_concat (history : List Node) (node : Node) :
    (history ++ [node]).dedup = movedLast history.dedup node := by
  induction history with
  | nil => rfl
  | cons first history ih =>
    rw [List.cons_append]
    by_cases hagain : first ∈ history
    · rw [List.dedup_cons_of_mem (List.mem_append_left _ hagain), List.dedup_cons_of_mem hagain, ih]
    rw [List.dedup_cons_of_notMem hagain]
    by_cases hsame : first = node
    · subst hsame
      rw [List.dedup_cons_of_mem (List.mem_append_right _ List.mem_cons_self), ih, movedLast, movedLast,
        List.filter_cons_of_neg (by simp)]
    · have hout : first ∉ history ++ [node] := by
        rw [List.mem_append, not_or, List.mem_singleton]
        exact ⟨hagain, hsame⟩
      rw [List.dedup_cons_of_notMem hout, ih, movedLast, movedLast,
        List.filter_cons_of_pos (by simpa using hsame), List.cons_append]

/-- In every reachable state the list is laid out in the order of last dirtying. -/
theorem Reachable.listed {history : List Node} {allocator : PageAllocator Node}
    (h : Reachable history allocator) :
    Listed allocator history.dedup := by
  induction h with
  | construct =>
    refine ⟨List.nodup_nil, rfl, rfl, trivial, fun _ _ => ⟨rfl, rfl⟩, ?_⟩
    intro node hnode
    cases hnode
  | @dirty history allocator after h node hexec ih =>
    rw [dedup_concat]
    exact (ih.after_dirty hexec).1
  | @moveFlush history allocator h target htarget ih =>
    refine ⟨ih.nodup, ih.first, ih.last, ih.linked, ih.unlisted, ?_⟩
    intro node hnode
    exact List.mem_dedup.mpr (htarget node hnode)

/-- The list of dirty nodes in the order of last dirtying. `dedup` keeps the last of
the calls for a node. -/
structure InDirtyOrder (history : List Node) (allocator : PageAllocator Node) : Prop where
  visits : Follows allocator.nextDirty allocator.mFirstDirty history.dedup
  ends : allocator.mLastDirty = history.dedup.getLast?
  inverse : ∀ node other, allocator.nextDirty node = some other ↔ allocator.prevDirty other = some node
  noneBefore : ∀ node, allocator.mFirstDirty = some node → allocator.prevDirty node = none
  flush : ∀ node, allocator.mFlushNext = some node → node ∈ history.dedup

theorem Listed.inDirtyOrder {history : List Node} {allocator : PageAllocator Node}
    (h : Listed allocator history.dedup) : InDirtyOrder history allocator := by
  refine ⟨?_, h.last, ?_, ?_, h.flush⟩
  · rw [h.first]
    exact h.linked.follows
  · intro node other
    constructor
    · intro hnext
      have hmem : node ∈ history.dedup := by
        by_contra hout
        rw [(h.unlisted node hout).1] at hnext
        cases hnext
      exact h.linked.prev_of_next hmem hnext
    · intro hprev
      have hmem : other ∈ history.dedup := by
        by_contra hout
        rw [(h.unlisted other hout).2] at hprev
        cases hprev
      exact h.linked.next_of_prev (fun hnone => by cases hnone) hmem hprev
  · intro node hfirst
    rw [h.first] at hfirst
    have hlinked := h.linked
    generalize history.dedup = nodes at hfirst hlinked
    cases nodes with
    | nil => cases hfirst
    | cons first rest =>
      obtain rfl := Option.some.inj hfirst
      exact hlinked.1

/-- What is left to flush after a call is what was left before, in the same order,
apart from the node that was dirtied. -/
def KeepsPending (node : Node) (before after : PageAllocator Node) : Prop :=
  ∃ nodes nodes', Follows before.nextDirty before.mFlushNext nodes ∧
    Follows after.nextDirty after.mFlushNext nodes' ∧
    nodes'.filter (fun other => decide (other ≠ node)) = nodes.filter (fun other => decide (other ≠ node))

/-- The dirty list holds each dirtied node once, in the order of the last calls for
them, linked both ways, whatever the order of the calls and wherever the flush
iterator is moved between them. The next call returns and takes no other node out
of what is left to flush. -/
theorem reachable_inDirtyOrder {history : List Node} {allocator : PageAllocator Node}
    (h : Reachable history allocator) :
    InDirtyOrder history allocator ∧
      ∀ node, ∃ after, (dirty node).exec allocator = (.ok (), after) ∧
        KeepsPending node allocator after := by
  have hlisted := h.listed
  refine ⟨hlisted.inDirtyOrder, ?_⟩
  intro node
  obtain ⟨after, hexec, hafter, hpending⟩ := hlisted.dirty node
  exact ⟨after, hexec, _, _, hlisted.follows_pending, hafter.follows_pending, hpending⟩

/-- The first of three nodes is dirtied again, with the flush iterator on it. -/
theorem reachable_inDirtyOrder_again :
    ∃ allocator : PageAllocator Nat, InDirtyOrder [1, 2, 3, 1] allocator ∧
      ∀ node, ∃ after, (dirty node).exec allocator = (.ok (), after) ∧
        KeepsPending node allocator after :=
  ⟨_, reachable_inDirtyOrder (((((Reachable.construct.dirty 1 rfl).dirty 2 rfl).dirty 3 rfl).moveFlush
    (some 1) (by simp)).dirty 1 rfl)⟩

end tupl.pvt.disabled.PageAllocator
