import TuplNative.Disabled.PageAllocator.Flush

namespace tupl.pvt.disabled.PageAllocator

/-- How `allocPage` can end other than by returning. -/
inductive Fault (Error : Type) where
  /-- A check or a pointer failed within the allocator. -/
  | failed (failure : Failure)
  /-- The page database threw. -/
  | thrown (error : Error)
deriving DecidableEq, Repr

/-- What `allocPage` works on: the allocator, the page database that it saved a
reference to, and what the page databases hold. -/
structure State (Node PageDb Pages : Type) where
  allocator : PageAllocator Node
  mPageDbSavedForSanity : PageDb
  pages : Pages

variable {Node PageDb Pages Error : Type} [DecidableEq Node] [DecidableEq PageDb]

omit [DecidableEq Node] [DecidableEq PageDb] in
/-- A call of the allocator. -/
def onAllocator {α : Type} (call : Call Failure (PageAllocator Node) α) :
    Call (Fault Error) (State Node PageDb Pages) α :=
  Call.within State.allocator (fun allocator state => { state with allocator := allocator }) Fault.failed call

omit [DecidableEq Node] [DecidableEq PageDb] in
/-- A call of a page database. -/
def onPages {α : Type} (call : Call Error Pages α) : Call (Fault Error) (State Node PageDb Pages) α :=
  Call.within State.pages (fun pages state => { state with pages := pages }) Fault.thrown call

/-- `PageAllocator::allocPage(forNode, source)`. What `PageDb::allocPage` does to each
page database is a parameter. It returns a page id, or throws a `system_error`. -/
def allocPage (ndebug : Bool) (pageDbAllocPage : PageDb → Call Error Pages Int) (forNode : Node)
    (source : PageDb) : Call (Fault Error) (State Node PageDb Pages) Int := do
  let saved := (← get).mPageDbSavedForSanity
  onAllocator (assert ndebug (source = saved))
  onAllocator (dirty forNode)
  onPages (pageDbAllocPage source)

/-- A dirty list is laid out in one way only. -/
theorem Listed.unique {allocator after : PageAllocator Node} {nodes : List Node}
    (h : Listed allocator nodes) (h' : Listed after nodes) (hflush : after.mFlushNext = allocator.mFlushNext) :
    after = allocator := by
  have hlinks : ∀ node, after.nextDirty node = allocator.nextDirty node ∧
      after.prevDirty node = allocator.prevDirty node := by
    intro node
    by_cases hin : node ∈ nodes
    · exact h'.linked.links_unique h.linked hin
    · obtain ⟨hnext, hprev⟩ := h.unlisted node hin
      obtain ⟨hnext', hprev'⟩ := h'.unlisted node hin
      exact ⟨hnext'.trans hnext.symm, hprev'.trans hprev.symm⟩
  obtain ⟨first, last, _, next, prev⟩ := allocator
  obtain ⟨first', last', _, next', prev'⟩ := after
  obtain rfl : first' = first := h'.first.trans h.first.symm
  obtain rfl : last' = last := h'.last.trans h.last.symm
  obtain rfl : next' = next := funext fun node => (hlinks node).1
  obtain rfl : prev' = prev := funext fun node => (hlinks node).2
  exact congrArg (fun flush => PageAllocator.mk first' last' flush next' prev') hflush

/-- Dirtying a node changes nothing exactly where it is the last node and the flush
iterator does not leave it. -/
theorem Listed.dirty_unchanged_iff {allocator after : PageAllocator Node} {nodes : List Node} {node : Node}
    (h : Listed allocator nodes)
    (hexec : (PageAllocator.dirty node).exec allocator = (.ok (), after)) :
    after = allocator ↔ allocator.mLastDirty = some node ∧ ¬ OnLast node allocator := by
  have hafter := (h.after_dirty hexec).1
  obtain ⟨hlost, hkept⟩ := h.dirty_flushNext hexec
  constructor
  · intro hsame
    refine ⟨?_, fun hon => ?_⟩
    · rw [← hsame, hafter.last, movedLast, List.getLast?_concat]
    · have hnone := hlost hon
      rw [hsame, hon.1] at hnone
      cases hnone
  · rintro ⟨hlast, hon⟩
    have hmoved : movedLast nodes node = nodes := by
      rw [h.last] at hlast
      obtain ⟨before, rfl⟩ := List.getLast?_eq_some_iff.mp hlast
      rw [movedLast_append h.nodup, List.append_nil]
    rw [hmoved] at hafter
    exact h.unique hafter ((hkept hon).2 hlast)

section Calls

variable {ndebug : Bool} {pageDbAllocPage : PageDb → Call Error Pages Int} {node : Node} {source : PageDb}
  {state : State Node PageDb Pages}

theorem allocPage_exec_assertion (hndebug : ndebug = false) (hsource : source ≠ state.mPageDbSavedForSanity) :
    (allocPage ndebug pageDbAllocPage node source).exec state = (.error (.failed .assertion), state) := by
  subst hndebug
  have hassert : (onAllocator (assert false (source = state.mPageDbSavedForSanity)) :
      Call (Fault Error) _ _).exec state = (.error (.failed .assertion), state) :=
    Call.exec_within_error (exec_assert_false hsource _)
  unfold allocPage
  rw [Call.exec_get_bind, Call.exec_bind_error hassert]

/-- Once past the check, the node is dirtied before the page database is asked. -/
theorem allocPage_exec (hsource : ndebug = true ∨ source = state.mPageDbSavedForSanity)
    {after : PageAllocator Node} (hdirty : (dirty node).exec state.allocator = (.ok (), after)) :
    (allocPage ndebug pageDbAllocPage node source).exec state =
      match (pageDbAllocPage source).exec state.pages with
      | (.ok page, pages) => (.ok page, { state with allocator := after, pages := pages })
      | (.error error, pages) =>
        (.error (.thrown error), { state with allocator := after, pages := pages }) := by
  have hassert : (onAllocator (assert ndebug (source = state.mPageDbSavedForSanity)) :
      Call (Fault Error) _ _).exec state = (.ok (), state) := by
    apply Call.exec_within_ok
    rw [assert, if_pos hsource, Call.exec_pure]
  have hdirtied : (onAllocator (dirty node) : Call (Fault Error) _ _).exec state =
      (.ok (), { state with allocator := after }) :=
    Call.exec_within_ok hdirty
  unfold allocPage onPages
  rw [Call.exec_get_bind, Call.exec_bind_ok hassert, Call.exec_bind_ok hdirtied, Call.exec_within]
  dsimp only
  rcases (pageDbAllocPage source).exec state.pages with ⟨_ | _, _⟩ <;> rfl

end Calls

/-- If `allocPage` throws, the pointers of the allocator and all dirty links are as
they were before the call. -/
def KeepsListIfThrown (state : State Node PageDb Pages)
    (result : Except (Fault Error) Int × State Node PageDb Pages) : Prop :=
  ∀ error, result.1 = .error (.thrown error) → result.2.allocator = state.allocator

/-- A failed allocation leaves the dirty list alone exactly when the node is the last
one already and the flush iterator does not leave it. Elsewhere the node stays dirty
without a page. Where the page database does not throw, or the check of the page
database aborts first, there is nothing to keep. -/
theorem allocPage_keepsList_iff (ndebug : Bool) (pageDbAllocPage : PageDb → Call Error Pages Int)
    (state : State Node PageDb Pages) {nodes : List Node} (h : Listed state.allocator nodes) (node : Node)
    (source : PageDb) :
    KeepsListIfThrown state ((allocPage ndebug pageDbAllocPage node source).exec state) ↔
      ((∃ error, ((pageDbAllocPage source).exec state.pages).1 = .error error) →
        (ndebug = true ∨ source = state.mPageDbSavedForSanity) →
        state.allocator.mLastDirty = some node ∧ ¬ OnLast node state.allocator) := by
  by_cases hsource : ndebug = true ∨ source = state.mPageDbSavedForSanity
  · obtain ⟨after, hdirty, _, _⟩ := h.dirty node
    unfold KeepsListIfThrown
    rw [allocPage_exec hsource hdirty, ← h.dirty_unchanged_iff hdirty]
    generalize (pageDbAllocPage source).exec state.pages = result
    obtain ⟨outcome, pages⟩ := result
    cases outcome with
    | ok page =>
      constructor
      · rintro _ ⟨error, herror⟩ _
        cases herror
      · intro _ error herror
        cases herror
    | error error =>
      constructor
      · intro hkeeps _ _
        exact hkeeps error rfl
      · intro hsame _ _
        exact hsame ⟨error, rfl⟩ hsource
  · rw [not_or, Bool.not_eq_true] at hsource
    rw [allocPage_exec_assertion hsource.1 hsource.2]
    constructor
    · rintro _ _ (hndebug | hsame)
      · rw [hsource.1] at hndebug
        cases hndebug
      · exact absurd hsame hsource.2
    · intro _ error herror
      cases herror

/-- A page database that hands out the ids from a counter on until it is full. -/
def countingPageDb (limit : Int) (_ : Unit) : Call String Int Int := do
  let next ← get
  if next ≥ limit then
    throw "No space left on device"
  set (next + 1)
  return next

/-- With the flush iterator off the last node, a failed allocation for that node
changes nothing. -/
theorem allocPage_keepsList_last :
    ∃ allocator : PageAllocator Nat, ∃ state : State Nat Unit Int,
      state = ⟨allocator, (), 4⟩ ∧ allocator.mLastDirty = some 2 ∧
      KeepsListIfThrown state ((allocPage false (countingPageDb 4) 2 ()).exec state) := by
  refine ⟨_, _, rfl, ?_, (allocPage_keepsList_iff false (countingPageDb 4) ⟨_, (), 4⟩
    (Reachable.listed ((Reachable.construct.dirty 1 rfl).dirty 2 rfl)) 2 ()).mpr fun _ _ => ⟨rfl, ?_⟩⟩
  · rfl
  · rintro ⟨hflush, _⟩
    cases hflush

/-- A failed allocation for a new node leaves it on the list. -/
theorem not_keepsList_new :
    ∃ state : State Nat Unit Int, state = ⟨construct, (), 4⟩ ∧ Listed state.allocator [] ∧
      ((allocPage false (countingPageDb 4) 1 ()).exec state).1 =
        .error (.thrown "No space left on device") ∧
      ((allocPage false (countingPageDb 4) 1 ()).exec state).2.allocator.mFirstDirty = some 1 ∧
      ¬ KeepsListIfThrown state ((allocPage false (countingPageDb 4) 1 ()).exec state) := by
  refine ⟨_, rfl, Reachable.construct.listed, rfl, rfl, ?_⟩
  intro hkeeps
  have hfirst := congrArg PageAllocator.mFirstDirty (hkeeps _ rfl)
  cases hfirst

end tupl.pvt.disabled.PageAllocator
