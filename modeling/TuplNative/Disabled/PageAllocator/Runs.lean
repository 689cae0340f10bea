import TuplNative.Disabled.PageAllocator.Allocation
import TuplNative.Run

namespace tupl.pvt.disabled.PageAllocator

variable {Node PageDb Pages Error : Type} [DecidableEq Node] [DecidableEq PageDb]

/-- An allocation whose caller catches what the page database throws and goes on. -/
def allocCaught (ndebug : Bool) (pageDbAllocPage : PageDb → Call Error Pages Int)
    (state : State Node PageDb Pages) (request : Node × PageDb) : Option (State Node PageDb Pages) :=
  match (allocPage ndebug pageDbAllocPage request.1 request.2).exec state with
  | (.ok _, state) => some state
  | (.error (.thrown _), state) => some state
  | (.error (.failed _), _) => none

/-- The list once pages were asked for some nodes, whether they were got or not. -/
def listAfter (nodes : List Node) (requests : List (Node × PageDb)) : List Node :=
  requests.foldl (fun nodes request => movedLast nodes request.1) nodes

/-- What following the links from the flush iterator visits is what it visited at the start,
together with the nodes that pages were asked for since. -/
def Awaits (awaiting : List Node) (requests : List (Node × PageDb)) (state : State Node PageDb Pages) :
    Prop :=
  ∃ reached, Follows state.allocator.nextDirty state.allocator.mFlushNext reached ∧
    ∀ node, node ∈ reached ↔ node ∈ awaiting ∨ node ∈ requests.map Prod.fst

section Step

variable {ndebug : Bool} {pageDbAllocPage : PageDb → Call Error Pages Int}
  {state state' : State Node PageDb Pages} {nodes awaiting : List Node} {request : Node × PageDb}
  {done : List (Node × PageDb)}

omit [DecidableEq PageDb] in
theorem listAfter_concat (nodes : List Node) (done : List (Node × PageDb)) (request : Node × PageDb) :
    listAfter nodes (done ++ [request]) = movedLast (listAfter nodes done) request.1 :=
  List.foldl_append

/-- Whether a page was got or not, the allocator has dirtied the node. -/
theorem Listed.of_allocCaught (h : Listed state.allocator nodes)
    (hstep : allocCaught ndebug pageDbAllocPage state request = some state') :
    (PageAllocator.dirty request.1).exec state.allocator = (.ok (), state'.allocator) := by
  unfold allocCaught at hstep
  by_cases hsource : ndebug = true ∨ request.2 = state.mPageDbSavedForSanity
  · obtain ⟨after, hdirty, _, _⟩ := h.dirty request.1
    rw [allocPage_exec hsource hdirty] at hstep
    rw [hdirty]
    generalize (pageDbAllocPage request.2).exec state.pages = result at hstep
    obtain ⟨outcome, pages⟩ := result
    cases outcome with
    | ok page =>
      cases hstep
      rfl
    | error error =>
      cases hstep
      rfl
  · rw [not_or, Bool.not_eq_true] at hsource
    rw [allocPage_exec_assertion hsource.1 hsource.2] at hstep
    cases hstep

/-- Off the last of several nodes the iterator stays on the list, and the node that was
dirtied is behind it. -/
theorem Listed.pending_after (h : Listed state.allocator nodes) (hflush : state.allocator.mFlushNext ≠ none)
    (hon : ¬ OnLast request.1 state.allocator)
    (hstep : allocCaught ndebug pageDbAllocPage state request = some state') :
    state'.allocator.mFlushNext ≠ none ∧
      ∀ node, node ∈ pending (movedLast nodes request.1) state'.allocator.mFlushNext ↔
        node ∈ pending nodes state.allocator.mFlushNext ∨ node = request.1 := by
  have hexec := h.of_allocCaught hstep
  obtain ⟨hafter, hothers⟩ := h.after_dirty hexec
  have hflush' : state'.allocator.mFlushNext ≠ none :=
    fun hnone => hflush (((h.dirty_flushNext hexec).2 hon).1.mpr hnone)
  refine ⟨hflush', fun node => ?_⟩
  by_cases hsame : node = request.1
  · subst hsame
    obtain ⟨start, hstart⟩ := Option.ne_none_iff_exists'.mp hflush'
    rw [hstart]
    exact iff_of_true (mem_pending_concat (hafter.flush start hstart)) (Or.inr rfl)
  · have hkeeps : ∀ reached : List Node, node ∈ reached ↔
        node ∈ reached.filter fun other => decide (other ≠ request.1) := by
      intro reached
      rw [List.mem_filter, decide_eq_true_iff, and_iff_left hsame]
    rw [or_iff_left hsame, hkeeps, hothers, ← hkeeps]

end Step

/-- In every run of allocations, the failed ones among them, the list holds each node once in
the order of the last calls for it, whether a flush is in progress or not. And no node that
awaits a flush is missed exactly as long as no allocation is for the last of several nodes
while the iterator stands at it. -/
theorem allocations_keepFlush_iff (ndebug : Bool) (pageDbAllocPage : PageDb → Call Error Pages Int)
    {state : State Node PageDb Pages} {nodes : List Node} (h : Listed state.allocator nodes)
    (requests : List (Node × PageDb)) :
    (∀ after, run (allocCaught ndebug pageDbAllocPage) state requests = some after →
      Listed after.allocator (listAfter nodes requests)) ∧
    ∀ start, state.allocator.mFlushNext = some start →
      (run.Always (allocCaught ndebug pageDbAllocPage) state (Awaits (pending nodes (some start))) requests ↔
        run.EachStep (allocCaught ndebug pageDbAllocPage) state
          (fun state request => ¬ OnLast request.1 state.allocator) requests) := by
  refine ⟨?_, fun start hflush => ?_⟩
  · intro after hrun
    refine run.along (fun done state => Listed state.allocator (listAfter nodes done)) h ?_ hrun
    intro done request state state' _ hlisted hstep
    rw [listAfter_concat]
    exact (hlisted.after_dirty (hlisted.of_allocCaught hstep)).1
  apply run.always_iff_eachStep (fun _ => True) (fun done after =>
    Listed after.allocator (listAfter nodes done) ∧ after.allocator.mFlushNext ≠ none ∧
      ∀ node, node ∈ pending (listAfter nodes done) after.allocator.mFlushNext ↔
        node ∈ pending nodes (some start) ∨ node ∈ done.map Prod.fst)
  · refine ⟨h, ?_, fun node => ?_⟩
    · rw [hflush]
      exact Option.some_ne_none _
    · rw [hflush]
      exact (or_iff_left List.not_mem_nil).symm
  · exact fun _ _ _ _ => trivial
  · rintro done after ⟨hlisted, _, hmem⟩
    exact ⟨_, hlisted.follows_pending, hmem⟩
  · rintro done request before after _ ⟨hlisted, hflush, hmem⟩ hon hstep
    obtain ⟨hflush', hmem'⟩ := hlisted.pending_after hflush hon hstep
    rw [listAfter_concat]
    refine ⟨(hlisted.after_dirty (hlisted.of_allocCaught hstep)).1, hflush', fun node => ?_⟩
    rw [hmem', hmem, List.map_append, List.mem_append, List.map_singleton, List.mem_singleton, or_assoc]
  · rintro done request before after _ ⟨hlisted, _, _⟩ hon hstep ⟨reached, hreached, hmem⟩
    rw [not_not] at hon
    have hlost := (hlisted.dirty_flushNext (hlisted.of_allocCaught hstep)).1 hon
    rw [hlost] at hreached
    obtain rfl := hreached.unique .nil
    refine List.not_mem_nil ((hmem request.1).mpr (Or.inr ?_))
    rw [List.map_append, List.map_singleton]
    exact List.mem_append_right _ List.mem_cons_self
  · trivial

/-- Three nodes are dirty, the flush is at the first one, and there is a page for only one of
two allocations. -/
theorem allocations_keepFlush_twoRequests :
    ∃ state : State Nat Unit Int, state.allocator.mFlushNext = some 1 ∧
      (∀ after, run (allocCaught false (countingPageDb 4)) state [(2, ()), (5, ())] = some after →
        Listed after.allocator (listAfter [1, 2, 3] [(2, ()), (5, ())])) ∧
      ∀ start, state.allocator.mFlushNext = some start →
        (run.Always (allocCaught false (countingPageDb 4)) state (Awaits (pending [1, 2, 3] (some start)))
            [(2, ()), (5, ())] ↔
          run.EachStep (allocCaught false (countingPageDb 4)) state
            (fun state request => ¬ OnLast request.1 state.allocator) [(2, ()), (5, ())]) := by
  have hlisted := Reachable.listed
    ((((Reachable.construct.dirty 1 rfl).dirty 2 rfl).dirty 3 rfl).moveFlush (some 1) (by simp))
  exact ⟨⟨_, (), 3⟩, rfl, allocations_keepFlush_iff false (countingPageDb 4) hlisted [(2, ()), (5, ())]⟩

end tupl.pvt.disabled.PageAllocator
