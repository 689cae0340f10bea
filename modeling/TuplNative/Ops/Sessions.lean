import TuplNative.Ops.Find
import TuplNative.Ops.Store
import TuplNative.Run

namespace tupl.pvt.ops

/-- A call on a cursor. -/
inductive Request where
  | find (key : Bytes)
  | store (value : Bytes)
deriving DecidableEq

/-- What a thread works on with its cursors: the stack and the key of each of them, and
what they share. -/
structure Session (Cursor Node Frame : Type) where
  stackFrames : Cursor → ArrayStackGeneric Frame 64
  key : Cursor → slow.Buffer
  node : Frame → Node
  visitorFrames : Node → List Frame
  latched : List Node
  root : Node
  leaf : Node → slow.LeafNode

variable {Cursor Node Frame : Type} [DecidableEq Cursor]

namespace Session

omit [DecidableEq Cursor] in
/-- The thread with one of its cursors. -/
def thread (session : Session Cursor Node Frame) (cursor : Cursor) : State Node Frame where
  stackFrames := session.stackFrames cursor
  node := session.node
  visitorFrames := session.visitorFrames
  latched := session.latched
  root := session.root

/-- The session once the thread has worked on one of its cursors. -/
def withThread (session : Session Cursor Node Frame) (cursor : Cursor) (thread : State Node Frame)
    (key : slow.Buffer) : Session Cursor Node Frame where
  stackFrames := Function.update session.stackFrames cursor thread.stackFrames
  key := Function.update session.key cursor key
  node := thread.node
  visitorFrames := thread.visitorFrames
  latched := thread.latched
  root := thread.root
  leaf := session.leaf

omit [DecidableEq Cursor] in
/-- What `find` gets. Its locks are local, and its history begins anew. -/
def finding (cursor : Cursor) (session : Session Cursor Node Frame) : FindState Node Frame where
  toState := session.thread cursor
  key := session.key cursor
  parentLock := none
  childLock := none
  events := []

omit [DecidableEq Cursor] in
/-- What `store` gets. -/
def storing (cursor : Cursor) (session : Session Cursor Node Frame) : StoreState Node Frame where
  toState := session.thread cursor
  key := session.key cursor
  leaf := session.leaf

/-- A call that leaves the thread as it was. -/
theorem withThread_thread (session : Session Cursor Node Frame) (cursor : Cursor) (key : slow.Buffer) :
    session.withThread cursor (session.thread cursor) key =
      { session with key := Function.update session.key cursor key } := by
  unfold withThread thread
  dsimp only
  rw [Function.update_eq_self]

variable [DecidableEq Node] [DecidableEq Frame]

/-- A call on a cursor. -/
def call (ndebug : Bool) (isLeaf : Node → Bool) (findChildNode : Node → Bytes → Node)
    (findValue : Node → Bytes → Except String Unit) (rounds : Nat) (cursor : Cursor) :
    Request → Call Exit (Session Cursor Node Frame) Unit
  | .find key =>
    Call.within (finding cursor) (fun after session => session.withThread cursor after.toState after.key) id
      (ops.find ndebug isLeaf findChildNode findValue rounds key)
  | .store value =>
    Call.within (storing cursor)
      (fun after session => { session.withThread cursor after.toState after.key with leaf := after.leaf }) id
      (ops.store ndebug value)

/-- A call whose caller catches exceptions and goes on, with a history of how the calls
ended. -/
def callCaught (ndebug : Bool) (isLeaf : Node → Bool) (findChildNode : Node → Bytes → Node)
    (findValue : Node → Bytes → Except String Unit) (rounds : Nat)
    (state : Session Cursor Node Frame × List (Except Exit Unit)) (request : Cursor × Request) :
    Option (Session Cursor Node Frame × List (Except Exit Unit)) :=
  match (call ndebug isLeaf findChildNode findValue rounds request.1 request.2).exec state.1 with
  | (.ok (), session) => some (session, state.2 ++ [.ok ()])
  | (.error exit, session) => if exit.isException then some (session, state.2 ++ [.error exit]) else none

end Session

/-- The keys of the cursors after some calls. -/
def keysAfter (key : Cursor → slow.Buffer) (requests : List (Cursor × Request)) : Cursor → slow.Buffer :=
  requests.foldl (fun key request =>
    match request.2 with
    | .find searched => Function.update key request.1 searched
    | .store _ => key) key

section Unpositioned

variable [DecidableEq Node] [DecidableEq Frame]

/-- How a call ends on a cursor without a position: a search with what `findValue` makes of
the leaf that the key leads to, and a store with an exception. -/
inductive Unstored (isLeaf : Node → Bool) (findChildNode : Node → Bytes → Node)
    (findValue : Node → Bytes → Except String Unit) (root : Node) :
    Cursor × Request → Except Exit Unit → Prop where
  | find {cursor : Cursor} {key : Bytes} {events : List (Event Node)} {leaf : Node}
      (hdescent : Descent isLeaf (fun node => findChildNode node key) root events leaf) :
    Unstored isLeaf findChildNode findValue root (cursor, .find key)
      ((findValue leaf key).mapError .logicError)
  | store {cursor : Cursor} {value : Bytes} :
    Unstored isLeaf findChildNode findValue root (cursor, .store value) (.error (.runtimeError "unpositioned"))

variable {isLeaf : Node → Bool} {child : Node → Node → Prop} {findChildNode : Node → Bytes → Node}

omit [DecidableEq Frame] in
theorem exec_store_unpositioned (ndebug : Bool) {state : StoreState Node Frame}
    (hstack : state.stackFrames.mTop = -1) (value : Bytes) :
    (store ndebug value).exec state = (.error (.runtimeError "unpositioned"), state) := by
  have hempty : (onStack (ArrayStackGeneric.empty ndebug)).exec state.toState = (.ok true, state.toState) := by
    apply exec_onStack
    unfold ArrayStackGeneric.empty
    rw [Call.exec_get_bind, Call.exec_bind_ok (exec_assert ndebug hstack _), hstack]
    rfl
  unfold store
  rw [Call.exec_bind_ok (StoreState.exec_onThread_ok hempty)]
  rfl

/-- With assertions disabled, a call on a cursor without a position changes nothing but the key
that it searches for. -/
theorem Session.exec_call_unpositioned (findValue : Node → Bytes → Except String Unit)
    (session : Session Cursor Node Frame)
    (hselect : ∀ node key, isLeaf node = false → child node (findChildNode node key))
    (htree : IsTree isLeaf child session.root) (hstack : ∀ cursor, (session.stackFrames cursor).mTop = -1)
    (hlatched : session.latched = []) (request : Cursor × Request) :
    ∃ outcome enough, Unstored isLeaf findChildNode findValue session.root request outcome ∧
      ∀ rounds, enough ≤ rounds →
        (call true isLeaf findChildNode findValue rounds request.1 request.2).exec session =
          (outcome, { session with key := keysAfter session.key [request] }) := by
  obtain ⟨cursor, request⟩ := request
  cases request with
  | find key =>
    obtain ⟨events, leaf, enough, hdescent, hfind⟩ := exec_find (session.finding cursor) true findValue
      (fun node => hselect node key) (hstack cursor) hlatched htree (Or.inl rfl)
    refine ⟨_, enough, .find hdescent, fun rounds hrounds => ?_⟩
    have hthread : { session.thread cursor with latched := [] } = session.thread cursor := by
      rw [← hlatched]
      rfl
    have hkept := session.withThread_thread cursor key
    rw [← hthread] at hkept
    rw [call, Call.exec_within, hfind rounds hrounds]
    cases findValue leaf key with
    | ok _ => exact congrArg (Prod.mk _) hkept
    | error _ => exact congrArg (Prod.mk _) hkept
  | store value =>
    have hstore : (store true value).exec (session.storing cursor) = _ :=
      exec_store_unpositioned true (hstack cursor) value
    refine ⟨_, 0, .store, fun rounds _ => ?_⟩
    rw [call, Call.exec_within_error hstore]
    refine congrArg (Prod.mk _) ?_
    have hkept := session.withThread_thread cursor (session.key cursor)
    rw [Function.update_eq_self] at hkept
    exact congrArg (fun after : Session Cursor Node Frame => { after with leaf := session.leaf }) hkept

/-- Cursors without a position never store anything. With assertions disabled, in a finite tree
and whatever children are selected, each `store` of every sequence of calls on any cursors
throws, each `find` ends as `findValue` does at the leaf that its key leads to, and nothing but
the keys of the cursors has changed: no cursor has got a position. -/
theorem unpositioned_storeNothing (findValue : Node → Bytes → Except String Unit)
    (session : Session Cursor Node Frame)
    (hselect : ∀ node key, isLeaf node = false → child node (findChildNode node key))
    (htree : IsTree isLeaf child session.root) (hstack : ∀ cursor, (session.stackFrames cursor).mTop = -1)
    (hlatched : session.latched = []) (requests : List (Cursor × Request)) :
    ∃ enough, ∀ rounds, enough ≤ rounds → ∃ outcomes,
      run (Session.callCaught true isLeaf findChildNode findValue rounds) (session, []) requests =
        some ({ session with key := keysAfter session.key requests }, outcomes) ∧
      List.Forall₂ (Unstored isLeaf findChildNode findValue session.root) requests outcomes := by
  induction requests using List.reverseRecOn with
  | nil => exact ⟨0, fun _ _ => ⟨[], rfl, .nil⟩⟩
  | append_singleton requests request ih =>
    obtain ⟨enough, hbefore⟩ := ih
    obtain ⟨outcome, enough', hended, hcall⟩ := Session.exec_call_unpositioned findValue
      { session with key := keysAfter session.key requests } hselect htree hstack hlatched request
    refine ⟨max enough enough', fun rounds hrounds => ?_⟩
    obtain ⟨outcomes, hrun, hall⟩ := hbefore rounds (Nat.le_trans (Nat.le_max_left _ _) hrounds)
    have hexec := hcall rounds (Nat.le_trans (Nat.le_max_right _ _) hrounds)
    refine ⟨outcomes ++ [outcome], ?_, List.rel_append hall (.cons hended .nil)⟩
    have hkeys : keysAfter session.key (requests ++ [request]) =
        keysAfter (keysAfter session.key requests) [request] := List.foldl_append
    refine run.run_concat_eq_some.mpr ⟨_, hrun, ?_⟩
    unfold Session.callCaught
    rw [hexec, hkeys]
    cases hended with
    | @find _ key _ leaf _ => cases findValue leaf key <;> rfl
    | store => rfl

/-- Two cursors without a position in a tree of two levels. -/
def unpositionedSession : Session Bool Nat Unit where
  stackFrames := fun _ => ArrayStackGeneric.construct
  key := fun _ => .empty
  node := fun _ => 0
  visitorFrames := fun _ => []
  latched := []
  root := 0
  leaf := fun _ => slow.LeafNode.construct

/-- One of them searches first; then both store. -/
def findThenStore : List (Bool × Request) :=
  [(true, .find (.repeated 1 7)), (true, .store .empty), (false, .store .empty)]

theorem unpositioned_storeNothing_twoCursors :
    ∃ enough, ∀ rounds, enough ≤ rounds → ∃ outcomes,
      run (Session.callCaught true (fun node => decide (1 ≤ node)) (fun node _ => node + 1)
          (fun _ _ => .error "unimplemented") rounds) (unpositionedSession, []) findThenStore =
        some ({ unpositionedSession with key := keysAfter unpositionedSession.key findThenStore }, outcomes) ∧
      List.Forall₂ (Unstored (fun node => decide (1 ≤ node)) (fun node _ => node + 1)
          (fun _ _ => .error "unimplemented") 0) findThenStore outcomes := by
  have htree : IsTree (fun node : Nat => decide (1 ≤ node)) (fun node next => node + 1 = next) 0 := by
    refine .internal rfl fun next hnext => ?_
    subst hnext
    exact .leaf rfl
  have hselect : ∀ (node : Nat) (key : Bytes), decide (1 ≤ node) = false → node + 1 = node + 1 :=
    fun _ _ _ => rfl
  have hstack : ∀ cursor, (unpositionedSession.stackFrames cursor).mTop = -1 := fun _ => rfl
  exact unpositioned_storeNothing _ unpositionedSession hselect htree hstack rfl findThenStore

end Unpositioned

/-- What a leaf is for the cursors that store into it: the entries in the order in which they
came, within 4096 bytes. -/
structure LogOf (leaf : slow.LeafNode) (log : List (slow.Buffer × slow.Buffer)) : Prop where
  children : leaf.mChildren = log
  counted : leaf.bytes.toNat = slow.storedBytes log
  within : slow.storedBytes log ≤ 4096

/-- A store on the logs of all leaves, with a history of how the stores ended. -/
def appendTo (leafNode : Cursor → Node) (key : Cursor → slow.Buffer) [DecidableEq Node]
    (state : (Node → List (slow.Buffer × slow.Buffer)) × List (Except Exit Unit)) (store : Cursor × Bytes) :
    (Node → List (slow.Buffer × slow.Buffer)) × List (Except Exit Unit) :=
  let log := state.1 (leafNode store.1)
  let size := (key store.1).data.length + store.2.data.length
  if 1024 < size then
    (state.1, state.2 ++ [.error (.fault (.failed (.invalidArgument "entry too big")))])
  else if 4096 < slow.storedBytes log + size then (state.1, state.2 ++ [.error (.logicError "unimplemented")])
  else
    (Function.update state.1 (leafNode store.1) (log ++ [(key store.1, store.2)]), state.2 ++ [.ok ()])

/-- The stores that returned. -/
def returned (stores : List (Cursor × Bytes)) (outcomes : List (Except Exit Unit)) : List (Cursor × Bytes) :=
  (stores.zip outcomes).filterMap fun ended =>
    match ended.2 with
    | .ok _ => some ended.1
    | .error _ => none

/-- What some stores add to the log of a leaf. -/
def entriesAt (leafNode : Cursor → Node) (key : Cursor → slow.Buffer) [DecidableEq Node]
    (stores : List (Cursor × Bytes)) (node : Node) : List (slow.Buffer × slow.Buffer) :=
  (stores.filter fun store => decide (leafNode store.1 = node)).map fun store => (key store.1, store.2)

section LogOf

variable {leaf : slow.LeafNode} {log : List (slow.Buffer × slow.Buffer)}

theorem LogOf.lacksRoom_iff (h : LogOf leaf log) (key value : Bytes) :
    leaf.LacksRoom key value ↔ 4096 < slow.storedBytes log + (key.data.length + value.data.length) := by
  have hcapacity := slow.capacity_toNat leaf
  have hle : leaf.bytes ≤ leaf.capacity := by
    rw [UInt64.le_iff_toNat_le, h.counted, hcapacity]
    exact h.within
  rw [slow.Node.LacksRoom, UInt64.lt_iff_toNat_lt, UInt64.toNat_sub_of_le _ _ hle, hcapacity, h.counted,
    slow.leaf_entrySize_toNat]
  have := h.within
  omega

theorem LogOf.appended (h : LogOf leaf log) {key value : Bytes}
    (hfits : slow.storedBytes log + (key.data.length + value.data.length) ≤ 4096) :
    LogOf (appended leaf key value) (log ++ [(key, value)]) := by
  have hstored : slow.storedBytes (log ++ [(key, value)]) =
      slow.storedBytes log + (key.data.length + value.data.length) := by
    rw [slow.storedBytes_append, slow.storedBytes_cons, slow.storedBytes_nil, slow.leaf_entrySize_toNat,
      Nat.add_zero]
  refine ⟨?_, ?_, ?_⟩
  · rw [appended_mChildren, h.children]
  · have hbytes : leaf.mBytes.toNat = slow.storedBytes log := h.counted
    change (leaf.mBytes + slow.entrySize (key, value)).toNat = _
    rw [UInt64.toNat_add, hbytes, slow.leaf_entrySize_toNat, hstored]
    omega
  · rwa [hstored]

end LogOf

section Append

variable [DecidableEq Node]

omit [DecidableEq Cursor] in
theorem returned_concat {stores : List (Cursor × Bytes)} {outcomes : List (Except Exit Unit)}
    (hlength : outcomes.length = stores.length) (store : Cursor × Bytes) (outcome : Except Exit Unit) :
    returned (stores ++ [store]) (outcomes ++ [outcome]) =
      returned stores outcomes ++ returned [store] [outcome] := by
  rw [returned, List.zip_append hlength.symm, List.filterMap_append]
  rfl

omit [DecidableEq Cursor] in
/-- The logs hold what they held and the entries of the stores that returned, in their order. -/
theorem foldl_appendTo (leafNode : Cursor → Node) (key : Cursor → slow.Buffer)
    (logs : Node → List (slow.Buffer × slow.Buffer)) (stores : List (Cursor × Bytes)) :
    (stores.foldl (appendTo leafNode key) (logs, [])).2.length = stores.length ∧
      ∀ node, (stores.foldl (appendTo leafNode key) (logs, [])).1 node = logs node ++
        entriesAt leafNode key (returned stores (stores.foldl (appendTo leafNode key) (logs, [])).2) node := by
  induction stores using List.reverseRecOn with
  | nil => exact ⟨rfl, fun node => (List.append_nil _).symm⟩
  | append_singleton stores store ih =>
    rw [List.foldl_append, List.foldl_cons, List.foldl_nil]
    generalize stores.foldl (appendTo leafNode key) (logs, []) = state at ih
    obtain ⟨hlength, hlogs⟩ := ih
    unfold appendTo
    dsimp only
    by_cases hbig : 1024 < (key store.1).data.length + store.2.data.length
    · rw [if_pos hbig]
      refine ⟨by rw [List.length_append, List.length_append, hlength]; rfl, fun node => ?_⟩
      rw [returned_concat hlength]
      simpa [returned] using hlogs node
    rw [if_neg hbig]
    by_cases hfull : 4096 < slow.storedBytes (state.1 (leafNode store.1)) +
        ((key store.1).data.length + store.2.data.length)
    · rw [if_pos hfull]
      refine ⟨by rw [List.length_append, List.length_append, hlength]; rfl, fun node => ?_⟩
      rw [returned_concat hlength]
      simpa [returned] using hlogs node
    rw [if_neg hfull]
    refine ⟨by rw [List.length_append, List.length_append, hlength]; rfl, fun node => ?_⟩
    have hone : returned [store] [.ok ()] = [store] := rfl
    rw [returned_concat hlength, hone, entriesAt, List.filter_append, List.map_append, ← List.append_assoc]
    dsimp only
    have hbefore := hlogs node
    rw [entriesAt] at hbefore
    rw [← hbefore]
    by_cases hsame : leafNode store.1 = node
    · subst hsame
      rw [Function.update_self, List.filter_cons_of_pos (by simp), List.filter_nil, List.map_singleton]
    · rw [Function.update_of_ne (Ne.symm hsame), List.filter_cons_of_neg (by simpa using hsame),
        List.filter_nil, List.map_nil, List.append_nil]

end Append

section Positioned

variable [DecidableEq Node] [DecidableEq Frame] {left : Cursor → List Frame} {frame : Cursor → Frame}
  {session : Session Cursor Node Frame}

/-- The session with other leaves. -/
def Session.withLeaves (session : Session Cursor Node Frame) (leaf : Node → slow.LeafNode) :
    Session Cursor Node Frame :=
  { session with leaf := leaf }

/-- A store that only gets at leaves, in the session. -/
theorem Session.exec_call_store (ndebug : Bool) (isLeaf : Node → Bool) (findChildNode : Node → Bytes → Node)
    (findValue : Node → Bytes → Except String Unit) (rounds : Nat) {leaf leaf' : Node → slow.LeafNode}
    {cursor : Cursor} {value : Bytes} {outcome : Except Exit Unit}
    (hstore : (store ndebug value).exec ((session.withLeaves leaf).storing cursor) =
      (outcome, { (session.withLeaves leaf).storing cursor with leaf := leaf' })) :
    (call ndebug isLeaf findChildNode findValue rounds cursor (.store value)).exec (session.withLeaves leaf) =
      (outcome, session.withLeaves leaf') := by
  have hkept := (session.withLeaves leaf').withThread_thread cursor (session.key cursor)
  rw [show (session.withLeaves leaf').key = session.key from rfl, Function.update_eq_self] at hkept
  rw [call, Call.exec_within, hstore]
  cases outcome with
  | ok _ => exact congrArg (Prod.mk _) hkept
  | error _ => exact congrArg (Prod.mk _) hkept

omit [DecidableEq Cursor] [DecidableEq Frame] in
/-- What `store` does with a cursor that is at a leaf, while no latch is held. -/
theorem Session.exec_storing {cursor : Cursor} {left : List Frame} {frame : Frame}
    (hstack : session.stackFrames cursor = ArrayStackGeneric.ofList (left ++ [frame]))
    (hlatched : session.latched = []) (leaf : Node → slow.LeafNode) (value : Bytes) :
    (store true value).exec ((session.withLeaves leaf).storing cursor) =
      if (leaf (session.node frame)).TooBig (session.key cursor) value then
        (.error (.fault (.failed (.invalidArgument "entry too big"))), (session.withLeaves leaf).storing cursor)
      else if (leaf (session.node frame)).LacksRoom (session.key cursor) value then
        (.error (.logicError "unimplemented"), (session.withLeaves leaf).storing cursor)
      else
        (.ok (), { (session.withLeaves leaf).storing cursor with
          leaf := Function.update leaf (session.node frame)
            (appended (leaf (session.node frame)) (session.key cursor) value) }) := by
  have hfree : ((session.withLeaves leaf).storing cursor).node frame ∉
      ((session.withLeaves leaf).storing cursor).latched := by
    change _ ∉ session.latched
    rw [hlatched]
    exact List.not_mem_nil
  have hstore : (store true value).exec ((session.withLeaves leaf).storing cursor) = _ :=
    exec_store hstack
  rwa [if_neg hfree, exec_storeLatched] at hstore

/-- A store does to the leaf of its cursor what it does to the log. -/
theorem Session.store_appends (isLeaf : Node → Bool) (findChildNode : Node → Bytes → Node)
    (findValue : Node → Bytes → Except String Unit) (rounds : Nat)
    (hstack : ∀ cursor, session.stackFrames cursor = ArrayStackGeneric.ofList (left cursor ++ [frame cursor]))
    (hlatched : session.latched = []) {leaf : Node → slow.LeafNode}
    {logs : (Node → List (slow.Buffer × slow.Buffer)) × List (Except Exit Unit)}
    (hlogs : ∀ node, LogOf (leaf node) (logs.1 node)) (store : Cursor × Bytes) :
    ∃ leaf', callCaught true isLeaf findChildNode findValue rounds (session.withLeaves leaf, logs.2)
        (store.1, .store store.2) =
          some (session.withLeaves leaf',
            (appendTo (fun cursor => session.node (frame cursor)) session.key logs store).2) ∧
      ∀ node, LogOf (leaf' node)
        ((appendTo (fun cursor => session.node (frame cursor)) session.key logs store).1 node) := by
  obtain ⟨cursor, value⟩ := store
  obtain ⟨logs, outcomes⟩ := logs
  dsimp only at hlogs
  have hlog := hlogs (session.node (frame cursor))
  have hbig := slow.Node.tooBig_iff (leaf (session.node (frame cursor))) (session.key cursor) value
  rw [slow.leaf_entrySize_toNat] at hbig
  have hroom := hlog.lacksRoom_iff (session.key cursor) value
  have hstore := exec_storing (hstack cursor) hlatched leaf value
  unfold callCaught appendTo
  dsimp only
  by_cases htooBig : 1024 < (session.key cursor).data.length + value.data.length
  · rw [if_pos (hbig.mpr htooBig)] at hstore
    rw [Session.exec_call_store true isLeaf findChildNode findValue rounds hstore, if_pos htooBig]
    exact ⟨leaf, rfl, hlogs⟩
  rw [if_neg fun h => htooBig (hbig.mp h)] at hstore
  rw [if_neg htooBig]
  by_cases hfull : 4096 < slow.storedBytes (logs (session.node (frame cursor))) +
      ((session.key cursor).data.length + value.data.length)
  · rw [if_pos (hroom.mpr hfull)] at hstore
    rw [Session.exec_call_store true isLeaf findChildNode findValue rounds hstore, if_pos hfull]
    exact ⟨leaf, rfl, hlogs⟩
  rw [if_neg fun h => hfull (hroom.mp h)] at hstore
  rw [Session.exec_call_store true isLeaf findChildNode findValue rounds hstore, if_neg hfull]
  refine ⟨_, rfl, fun node => ?_⟩
  dsimp only
  by_cases hsame : node = session.node (frame cursor)
  · subst hsame
    rw [Function.update_self, Function.update_self]
    exact hlog.appended (Nat.not_lt.mp hfull)
  · rw [Function.update_of_ne hsame, Function.update_of_ne hsame]
    exact hlogs node

/-- A run of stores does to the leaves what it does to the logs. -/
theorem Session.run_stores (isLeaf : Node → Bool) (findChildNode : Node → Bytes → Node)
    (findValue : Node → Bytes → Except String Unit) (rounds : Nat)
    (hstack : ∀ cursor, session.stackFrames cursor = ArrayStackGeneric.ofList (left cursor ++ [frame cursor]))
    (hlatched : session.latched = []) {logs : Node → List (slow.Buffer × slow.Buffer)}
    (hlogs : ∀ node, LogOf (session.leaf node) (logs node)) (stores : List (Cursor × Bytes)) :
    ∃ leaf, run (callCaught true isLeaf findChildNode findValue rounds) (session, [])
        (stores.map fun store => (store.1, .store store.2)) = some (session.withLeaves leaf,
          (stores.foldl (appendTo (fun cursor => session.node (frame cursor)) session.key) (logs, [])).2) ∧
      ∀ node, LogOf (leaf node)
        ((stores.foldl (appendTo (fun cursor => session.node (frame cursor)) session.key) (logs, [])).1 node) := by
  induction stores using List.reverseRecOn with
  | nil => exact ⟨session.leaf, rfl, hlogs⟩
  | append_singleton stores store ih =>
    obtain ⟨leaf, hrun, hbefore⟩ := ih
    obtain ⟨leaf', hcall, hafter⟩ :=
      store_appends isLeaf findChildNode findValue rounds hstack hlatched hbefore store
    rw [List.foldl_append, List.foldl_cons, List.foldl_nil, List.map_append, List.map_singleton]
    exact ⟨leaf', run.run_concat_eq_some.mpr ⟨_, hrun, hcall⟩, hafter⟩

omit [DecidableEq Cursor] [DecidableEq Frame] in
/-- In a map no key comes twice, and a cursor stores under one key. -/
theorem cursors_nodup {leafNode : Cursor → Node} {key : Cursor → slow.Buffer}
    {before : List (slow.Buffer × slow.Buffer)} {stores : List (Cursor × Bytes)} {node : Node}
    (hsorted : Sorted (before ++ entriesAt leafNode key stores node)) :
    ((stores.map Prod.fst).filter fun cursor => decide (leafNode cursor = node)).Nodup := by
  have hkeys := hsorted.keys_nodup
  rw [List.map_append] at hkeys
  have hadded := (List.nodup_append.mp hkeys).2.1
  have hcursors : (entriesAt leafNode key stores node).map Prod.fst =
      ((stores.map Prod.fst).filter fun cursor => decide (leafNode cursor = node)).map key := by
    rw [entriesAt, List.map_map, List.filter_map, List.map_map]
    rfl
  rw [hcursors] at hadded
  exact hadded.of_map

/-- Stores through cursors that stay at their leaves append to logs. In every sequence of
them, with the exceptions caught, a store throws if its entry is over a quarter of the
capacity or does not fit into what the leaf has left; otherwise the leaf has its entry behind
all others. No byte count is wrong and no leaf over its capacity, no latch is left behind, and
only a leaf in which no cursor has stored twice can still be a map. -/
theorem stores_append (isLeaf : Node → Bool) (findChildNode : Node → Bytes → Node)
    (findValue : Node → Bytes → Except String Unit) (rounds : Nat)
    (hstack : ∀ cursor, session.stackFrames cursor = ArrayStackGeneric.ofList (left cursor ++ [frame cursor]))
    (hlatched : session.latched = [])
    (hleaves : ∀ node, LogOf (session.leaf node) (session.leaf node).mChildren)
    (stores : List (Cursor × Bytes)) :
    ∃ leaf outcomes,
      run (Session.callCaught true isLeaf findChildNode findValue rounds) (session, [])
          (stores.map fun store => (store.1, .store store.2)) = some (session.withLeaves leaf, outcomes) ∧
      outcomes = (stores.foldl (appendTo (fun cursor => session.node (frame cursor)) session.key)
        (fun node => (session.leaf node).mChildren, [])).2 ∧
      ∀ node, LogOf (leaf node) ((session.leaf node).mChildren ++
          entriesAt (fun cursor => session.node (frame cursor)) session.key (returned stores outcomes) node) ∧
        (Sorted (leaf node).mChildren → (((returned stores outcomes).map Prod.fst).filter fun cursor =>
          decide (session.node (frame cursor) = node)).Nodup) := by
  obtain ⟨leaf, hrun, hafter⟩ :=
    Session.run_stores isLeaf findChildNode findValue rounds hstack hlatched hleaves stores
  have hlogs := (foldl_appendTo (fun cursor => session.node (frame cursor)) session.key
    (fun node => (session.leaf node).mChildren) stores).2
  refine ⟨leaf, _, hrun, rfl, fun node => ?_⟩
  have hlog := hafter node
  rw [hlogs] at hlog
  refine ⟨hlog, fun hsorted => ?_⟩
  rw [hlog.children] at hsorted
  exact cursors_nodup hsorted

/-- Two cursors with the keys 5 and 7 at one leaf. -/
def sharedLeaf : Session Bool Unit Bool where
  stackFrames := fun cursor => ArrayStackGeneric.ofList [cursor]
  key := fun cursor => if cursor then .repeated 1 7 else .repeated 1 5
  node := fun _ => ()
  visitorFrames := fun _ => [true, false]
  latched := []
  root := ()
  leaf := fun _ => slow.LeafNode.construct

/-- The first store through the cursor with the key 5 is too big, and its second one returns. -/
def storesOfBoth : List (Bool × Bytes) := [(true, .empty), (false, .repeated 2000 0), (false, .empty)]

theorem stores_append_sharedLeaf :
    ∃ leaf outcomes,
      run (Session.callCaught true (fun _ => true) (fun node _ => node) (fun _ _ => .ok ()) 1) (sharedLeaf, [])
          (storesOfBoth.map fun store => (store.1, .store store.2)) =
        some (sharedLeaf.withLeaves leaf, outcomes) ∧
      outcomes = (storesOfBoth.foldl (appendTo (fun _ => ()) sharedLeaf.key) (fun _ => [], [])).2 ∧
      ∀ node, LogOf (leaf node)
          ([] ++ entriesAt (fun _ => ()) sharedLeaf.key (returned storesOfBoth outcomes) node) ∧
        (Sorted (leaf node).mChildren →
          (((returned storesOfBoth outcomes).map Prod.fst).filter fun _ => decide (() = node)).Nodup) := by
  have hempty : LogOf slow.LeafNode.construct [] := ⟨rfl, rfl, Nat.zero_le _⟩
  have hstack : ∀ cursor, sharedLeaf.stackFrames cursor = ArrayStackGeneric.ofList ([] ++ [cursor]) :=
    fun _ => rfl
  exact stores_append (fun _ => true) (fun node _ => node) (fun _ _ => .ok ()) 1 hstack rfl (fun _ => hempty)
    storesOfBoth

end Positioned

end tupl.pvt.ops
