import TuplNative.Latching.History
import TuplNative.Ops.Threads

open Latching

namespace tupl.pvt.ops

variable {Node Frame Thread : Type}

/-- The entry that an access stores. -/
def Access.entry : Access Frame → Option (slow.Buffer × slow.Buffer)
  | .insert key value => some (key, value)
  | _ => none

variable [DecidableEq Node]

/-- What `store` makes of a leaf when it is the only call. -/
def storeAlone (state : StoreState Node Frame) (leafNode : Node) (leaf : slow.LeafNode)
    (e : slow.Buffer × slow.Buffer) : slow.LeafNode :=
  ((storeLatched true leafNode e.2).exec
    { state with key := e.1, leaf := Function.update state.leaf leafNode leaf }).2.leaf leafNode

/-- A store on a log: a refused entry, and one that does not fit, leaves it as it is. -/
def logEntry (log : List (slow.Buffer × slow.Buffer)) (e : slow.Buffer × slow.Buffer) :
    List (slow.Buffer × slow.Buffer) :=
  if 1024 < e.1.data.length + e.2.data.length ∨
      4096 < slow.storedBytes log + (e.1.data.length + e.2.data.length) then log
  else log ++ [e]

section Log

variable [DecidableEq Frame]

theorem storeAlone_eq (state : StoreState Node Frame) (leafNode : Node) (guarded : Guarded Frame)
    (e : slow.Buffer × slow.Buffer) :
    storeAlone state leafNode guarded.leaf e = (Access.perform (.insert e.1 e.2) guarded).leaf := by
  rw [storeAlone, leaf_storeLatched _ leafNode e.2 guarded.visitorFrames]
  dsimp only
  rw [Function.update_self]

theorem Access.perform_leaf (how : Access Frame) (guarded : Guarded Frame) (state : StoreState Node Frame)
    (leafNode : Node) :
    (how.perform guarded).leaf = how.entry.toList.foldl (storeAlone state leafNode) guarded.leaf := by
  cases how with
  | test => rfl
  | erase frame => rfl
  | insert key value => exact (storeAlone_eq state leafNode guarded (key, value)).symm

variable {leaf : slow.LeafNode} {log : List (slow.Buffer × slow.Buffer)}

theorem LogOf.storeAlone (h : LogOf leaf log) (state : StoreState Node Frame) (leafNode : Node)
    (e : slow.Buffer × slow.Buffer) : LogOf (storeAlone state leafNode leaf e) (logEntry log e) := by
  have hbig := slow.Node.tooBig_iff leaf e.1 e.2
  rw [slow.leaf_entrySize_toNat] at hbig
  have hroom := h.lacksRoom_iff e.1 e.2
  rw [storeAlone_eq state leafNode ⟨[], leaf⟩ e, Access.perform, logEntry]
  dsimp only
  by_cases hkept : leaf.TooBig e.1 e.2 ∨ leaf.LacksRoom e.1 e.2
  · rw [if_pos hkept, if_pos (hkept.imp hbig.mp hroom.mp)]
    exact h
  · have hlog : ¬ (1024 < e.1.data.length + e.2.data.length ∨
        4096 < slow.storedBytes log + (e.1.data.length + e.2.data.length)) :=
      fun hor => hkept (hor.imp hbig.mpr hroom.mpr)
    rw [if_neg hkept, if_neg hlog]
    exact h.appended (Nat.not_lt.mp fun hlt => hlog (.inr hlt))

theorem LogOf.foldl_storeAlone (h : LogOf leaf log) (state : StoreState Node Frame) (leafNode : Node)
    (stores : List (slow.Buffer × slow.Buffer)) :
    LogOf (stores.foldl (ops.storeAlone state leafNode) leaf) (stores.foldl logEntry log) := by
  induction stores generalizing leaf log with
  | nil => exact h
  | cons e stores ih => exact ih (h.storeAlone state leafNode e)

/-- Stores that fit one and all are all in the log. -/
theorem foldl_logEntry {stores : List (slow.Buffer × slow.Buffer)}
    (hsmall : ∀ e ∈ stores, e.1.data.length + e.2.data.length ≤ 1024)
    (hfit : slow.storedBytes log + slow.storedBytes stores ≤ 4096) :
    stores.foldl logEntry log = log ++ stores := by
  induction stores generalizing log with
  | nil => exact (List.append_nil log).symm
  | cons e stores ih =>
    have hsize := hsmall e List.mem_cons_self
    rw [slow.storedBytes_cons, slow.leaf_entrySize_toNat] at hfit
    have hlogged : logEntry log e = log ++ [e] := by
      rw [logEntry, if_neg (by omega)]
    have hstored : slow.storedBytes (log ++ [e]) =
        slow.storedBytes log + (e.1.data.length + e.2.data.length) := by
      rw [slow.storedBytes_append, slow.storedBytes_cons, slow.storedBytes_nil, slow.leaf_entrySize_toNat,
        Nat.add_zero]
    have hrest : stores.foldl logEntry (log ++ [e]) = log ++ [e] ++ stores :=
      ih (fun a ha => hsmall a (List.mem_cons_of_mem _ ha)) (by omega)
    rw [List.foldl_cons, hlogged, hrest, List.append_assoc]
    rfl

end Log

section Calls

variable {isLeaf : Node → Bool} {findChildNode : Node → Bytes → Node} {node : Frame → Node} {root : Node}

/-- The entry that a call stores at a leaf. -/
def ThreadCall.entryAt (leafNode : Node) :
    ThreadCall isLeaf findChildNode node root → Option (slow.Buffer × slow.Buffer)
  | .find _ => none
  | .store other _ key value => if other = leafNode then some (key, value) else none
  | .unpositioned => none

/-- What one call after the other stores at a leaf. -/
def entriesOffered (leafNode : Node) (calls : List (ThreadCall isLeaf findChildNode node root)) :
    List (slow.Buffer × slow.Buffer) :=
  calls.filterMap (ThreadCall.entryAt leafNode)

/-- The stores of some accesses. -/
def entries (accesses : List (Access Frame)) : List (slow.Buffer × slow.Buffer) :=
  accesses.filterMap Access.entry

omit [DecidableEq Node] in
theorem entries_append (accesses rest : List (Access Frame)) :
    entries (accesses ++ rest) = entries accesses ++ entries rest :=
  List.filterMap_append

/-- `find` stores nothing. -/
theorem FindCall.stores_nothing (call : FindCall isLeaf findChildNode node root)
    {command : Command Node (Access Frame)} (hcommand : command ∈ call.commands) (visited : Node)
    (key value : Bytes) : command ≠ .access visited (.insert key value) := by
  rintro rfl
  rw [FindCall.commands, List.mem_append, List.mem_append] at hcommand
  rcases hcommand with (hlock | hdown) | hrelease
  · cases hunwinding : call.unwinding with
    | none =>
      rw [hunwinding] at hlock
      cases List.mem_singleton.mp hlock
    | some unwinding =>
      rw [hunwinding] at hlock
      rcases List.mem_append.mp hlock with hupper | hbottom
      · obtain ⟨frame, _, hframe⟩ := List.mem_flatMap.mp hupper
        simp [unwindFrameCommands] at hframe
      · unfold unwindRootFrameCommands at hbottom
        split at hbottom <;> simp at hbottom
  · obtain ⟨event, _, hevent⟩ := List.mem_map.mp hdown
    unfold Event.command at hevent
    split at hevent <;> cases hevent
  · cases List.mem_singleton.mp hrelease

/-- A call stores its entry if it has one for the leaf. -/
theorem entries_commands (leafNode : Node) (call : ThreadCall isLeaf findChildNode node root) :
    entries (accessesTo leafNode call.commands) = (call.entryAt leafNode).toList := by
  cases call with
  | store other hleaf key value =>
    rw [ThreadCall.commands, ThreadCall.entryAt]
    by_cases hother : other = leafNode
    · simp [accessesTo, List.filterMap_cons, Command.accessTo, entries, Access.entry, hother]
    · simp [accessesTo, Command.accessTo, entries, hother]
  | unpositioned => rfl
  | find call =>
    refine List.filterMap_eq_nil_iff.mpr fun how hhow => ?_
    obtain ⟨command, hcommand, haccess⟩ := List.mem_filterMap.mp hhow
    cases how with
    | test => rfl
    | erase frame => rfl
    | insert key value =>
      cases command with
      | acquire latch => cases haccess
      | release latch => cases haccess
      | access visited other =>
        rw [Command.accessTo] at haccess
        split at haccess
        · cases haccess
          exact absurd rfl (call.stores_nothing hcommand visited key value)
        · cases haccess

theorem entries_session (leafNode : Node) (calls : List (ThreadCall isLeaf findChildNode node root)) :
    entries (accessesTo leafNode (sessionCommands calls)) = entriesOffered leafNode calls := by
  induction calls with
  | nil => rfl
  | cons call calls ih =>
    rw [sessionCommands, List.flatMap_cons, accessesTo_append, entries_append, entries_commands]
    rw [sessionCommands] at ih
    rw [ih, entriesOffered, entriesOffered, List.filterMap_cons]
    cases call.entryAt leafNode <;> rfl

end Calls

section Serialized

variable {Cursor : Type} [DecidableEq Cursor] [DecidableEq Frame] [DecidableEq Thread] {isLeaf : Node → Bool}
  {findChildNode : Node → Bytes → Node} {node : Frame → Node} {root : Node}

/-- The stores at a leaf, with the threads that made them, in the order of a schedule. -/
def storesAt (leafNode : Node) (sessions : Thread → ThreadSession Cursor isLeaf findChildNode node root)
    (schedule : List Thread) : List (Thread × (slow.Buffer × slow.Buffer)) :=
  (history leafNode (fun t => (sessions t).commands) schedule).filterMap fun made =>
    made.2.entry.map (Prod.mk made.1)

variable {sessions : Thread → ThreadSession Cursor isLeaf findChildNode node root} {data : Node → Guarded Frame}
  {schedule : List Thread} {s : System Thread Node (Access Frame) (Guarded Frame)}

/-- The stores of a thread, then those that it still has to make, are those of its calls. -/
theorem madeBy_storesAt
    (hrun : run (step Access.perform) (start (fun t => (sessions t).commands) data) schedule = some s)
    (leafNode : Node) (t : Thread) :
    madeBy t (storesAt leafNode sessions schedule) ++ entries (accessesTo leafNode (s.todo t)) =
      entriesOffered leafNode (sessions t).calls := by
  have hmade := madeBy_history hrun leafNode t
  rw [storesAt, madeBy_filterMap, ← entries_session]
  exact (entries_append _ _).symm.trans (congrArg entries hmade)

/-- A leaf is what its stores make of it one after the other. -/
theorem leaf_eq_foldl_storeAlone (state : StoreState Node Frame)
    (hrun : run (step Access.perform) (start (fun t => (sessions t).commands) data) schedule = some s)
    (leafNode : Node) :
    (s.data leafNode).leaf =
      (storesAt leafNode sessions schedule).foldl (fun leaf store => storeAlone state leafNode leaf store.2)
        (data leafNode).leaf := by
  have hfold : ∀ (made : List (Thread × Access Frame)) (guarded : Guarded Frame),
      (made.foldl (fun data made => made.2.perform data) guarded).leaf =
        (made.filterMap fun made => made.2.entry.map (Prod.mk made.1)).foldl
          (fun leaf store => storeAlone state leafNode leaf store.2) guarded.leaf := by
    intro made
    induction made with
    | nil => exact fun _ => rfl
    | cons first made ih =>
      intro guarded
      have hfirst := first.2.perform_leaf guarded state leafNode
      rw [List.foldl_cons, ih, hfirst, List.filterMap_cons]
      cases first.2.entry <;> rfl
  rw [run_data hrun leafNode, storesAt]
  exact hfold _ _

/-- Stores of any number of threads are serialized by the latch of the leaf. In every order of
steps the leaf is what its stores make of it one after the other, and nothing else has changed
it. Each thread's stores are made in its order, none twice, and none is missing once all calls
are done: those that its cursors had a position at the leaf for. As long as entries are small and
fit together into the leaf, no store is lost. -/
theorem stores_serialized (state : StoreState Node Frame) (leafNode : Node)
    (sessions : Thread → ThreadSession Cursor isLeaf findChildNode node root) (data : Node → Guarded Frame)
    (hleaf : LogOf (data leafNode).leaf (data leafNode).leaf.mChildren)
    (hrun : run (step Access.perform) (start (fun t => (sessions t).commands) data) schedule = some s) :
    (s.data leafNode).leaf =
        (storesAt leafNode sessions schedule).foldl (fun leaf store => storeAlone state leafNode leaf store.2)
          (data leafNode).leaf ∧
      (∀ t, madeBy t (storesAt leafNode sessions schedule) <+: entriesOffered leafNode (sessions t).calls) ∧
      ((∀ t, s.todo t = []) →
        ∀ t, madeBy t (storesAt leafNode sessions schedule) = entriesOffered leafNode (sessions t).calls) ∧
      ((∀ store ∈ storesAt leafNode sessions schedule, store.2.1.data.length + store.2.2.data.length ≤ 1024) →
        slow.storedBytes (data leafNode).leaf.mChildren +
            slow.storedBytes ((storesAt leafNode sessions schedule).map Prod.snd) ≤ 4096 →
          (s.data leafNode).leaf.mChildren =
            (data leafNode).leaf.mChildren ++ (storesAt leafNode sessions schedule).map Prod.snd) := by
  have hserial := leaf_eq_foldl_storeAlone state hrun leafNode
  refine ⟨hserial, fun t => ⟨_, madeBy_storesAt hrun leafNode t⟩, fun hdone t => ?_, fun hsmall hfit => ?_⟩
  · have hmade := madeBy_storesAt hrun leafNode t
    rw [hdone t] at hmade
    exact (List.append_nil _).symm.trans hmade
  · have hlog := hleaf.foldl_storeAlone state leafNode ((storesAt leafNode sessions schedule).map Prod.snd)
    rw [List.foldl_map, ← hserial] at hlog
    rw [hlog.children, foldl_logEntry ?_ hfit]
    intro e he
    obtain ⟨store, hstore, rfl⟩ := List.mem_map.mp he
    exact hsmall store hstore

end Serialized

/-- The search of a cursor whose stack is half full. -/
def findHalfway : FindCall (fun node : Nat => decide (1 ≤ node)) (fun node _ => node + 1)
    (fun frame : Nat => min frame 1) 0 where
  key := .repeated 1 7
  unwinding := some halfFull
  events := findBelowRoot.events
  leaf := 1
  descent := descent_belowRoot
  inTree := fun _ _ frame _ => isTree_belowRoot frame

/-- Two cursors with positions at the leaf. -/
def cursorsAtLeaf (cursor : Bool) : Position Nat :=
  if cursor then ⟨.repeated 1 7, halfFull.frames⟩ else ⟨.repeated 1 9, [40]⟩

/-- Both store. Once the one with a full way down has searched, it cannot store any more. -/
theorem issues_bothStore :
    Issues cursorsAtLeaf [(true, .store .empty), (false, .store .empty), (true, .find findHalfway.key),
        (true, .store .empty)]
      [.store 1 isLeaf_belowRoot (.repeated 1 7) .empty, .store 1 isLeaf_belowRoot (.repeated 1 9) .empty,
        .find findHalfway, .unpositioned]
      (Function.update cursorsAtLeaf true ⟨findHalfway.key, []⟩) := by
  have hfirst : (cursorsAtLeaf true).frames = (0 :: (List.range 30).map Nat.succ) ++ [31] := rfl
  have hsecond : (cursorsAtLeaf false).frames = [] ++ [40] := rfl
  exact .store .empty hfirst isLeaf_belowRoot (.store .empty hsecond isLeaf_belowRoot
    (.find findHalfway rfl (.unpositioned .empty rfl .nil)))

/-- Cursors with the key 8, each with a frame at the leaf. -/
def cursorsWithEight (_ : Bool) : Position Nat := ⟨.repeated 1 8, [50]⟩

theorem issues_oneStores :
    Issues cursorsWithEight [(true, .store .empty)]
      [(.store 1 isLeaf_belowRoot (.repeated 1 8) .empty : ThreadCall (fun node : Nat => decide (1 ≤ node))
        (fun node _ => node + 1) (fun frame : Nat => min frame 1) 0)] cursorsWithEight := by
  have hstack : (cursorsWithEight true).frames = [] ++ [50] := rfl
  exact .store .empty hstack isLeaf_belowRoot .nil

/-- One thread stores twice at the leaf, the other one once. -/
def threeStores (t : Bool) : ThreadSession Bool (fun node : Nat => decide (1 ≤ node)) (fun node _ => node + 1)
    (fun frame : Nat => min frame 1) 0 :=
  if t then ⟨_, _, _, _, issues_bothStore⟩ else ⟨_, _, _, _, issues_oneStores⟩

theorem stores_serialized_threeStores :
    ∃ s, run (step Access.perform) (start (fun t => (threeStores t).commands)
          fun _ => ⟨[], slow.LeafNode.construct⟩)
        [true, true, true, false, false, false, true, true, true] = some s ∧
      (s.data 1).leaf.mChildren =
        [(.repeated 1 7, .empty), (.repeated 1 8, .empty), (.repeated 1 9, .empty)] := by
  have hrun : run (step Access.perform) (start (fun t => (threeStores t).commands)
      fun _ => ⟨[], slow.LeafNode.construct⟩)
        [true, true, true, false, false, false, true, true, true] = some _ := rfl
  have hempty : LogOf slow.LeafNode.construct [] := ⟨rfl, rfl, Nat.zero_le _⟩
  obtain ⟨_, _, _, hkept⟩ := stores_serialized ⟨visiting 1, .empty, fun _ => slow.LeafNode.construct⟩ 1
    threeStores _ hempty hrun
  exact ⟨_, hrun, hkept (by decide) (by decide)⟩

end tupl.pvt.ops
