import TuplNative.Latching.Deadlock
import TuplNative.Ops.Threads.Coupling

open Latching

namespace tupl.pvt.ops

variable {Node Frame : Type} [DecidableEq Node] {isLeaf : Node → Bool} {findChildNode : Node → Bytes → Node}
  {node : Frame → Node} {root : Node} {key : Bytes}

variable (Frame) in
/-- Up to the point where a search wants the next node, it has gone down to the one before. -/
theorem Descent.opening {start leaf : Node} {events : List (Event Node)}
    (h : Descent isLeaf (fun node => findChildNode node key) start events leaf) {i : ℕ}
    (hinternal : ∀ j ≤ i, isLeaf ((fun node => findChildNode node key)^[j] start) = false) :
    ∃ opening rest, events.map (Event.command : Event Node → Command Node (Access Frame)) =
        opening ++ .acquire ((fun node => findChildNode node key)^[i + 1] start) :: rest ∧
      Disciplined (Above isLeaf findChildNode) [start] opening
        [(fun node => findChildNode node key)^[i] start] ∧
      ∀ latch, .acquire latch ∈ opening → ∃ j ≤ i, latch = (fun node => findChildNode node key)^[j] start := by
  induction h generalizing i with
  | leaf hleaf =>
    have hroot := hinternal 0 (Nat.zero_le i)
    rw [Function.iterate_zero_apply, hleaf] at hroot
    cases hroot
  | @child node leaf events _ hne hrest ih =>
    have hnode : isLeaf node = false := hinternal 0 (Nat.zero_le i)
    cases i with
    | zero => exact ⟨[.access node .test], _, rfl, ⟨List.mem_cons_self, rfl⟩, by simp⟩
    | succ i =>
      obtain ⟨opening, rest, hcommands, hdisciplined, hacquires⟩ :=
        ih fun j hj => hinternal (j + 1) (Nat.succ_le_succ hj)
      refine ⟨.access node .test :: .acquire (findChildNode node key) :: .release node :: opening, rest,
        ?_, ?_, ?_⟩
      · rw [List.map_cons, List.map_cons, List.map_cons, hcommands]
        rfl
      · have hfirst : Disciplined (Above isLeaf findChildNode) [node]
            ([.access node .test, .acquire (findChildNode node key), .release node] :
              List (Command Node (Access Frame))) [findChildNode node key] :=
          .handOver .test ⟨hnode, key, rfl⟩ hne
        exact hfirst.append hdisciplined
      · intro latch hlatch
        simp only [List.mem_cons, reduceCtorEq, Command.acquire.injEq, false_or] at hlatch
        rcases hlatch with rfl | hlatch
        · exact ⟨1, by omega, rfl⟩
        · obtain ⟨j, hj, rfl⟩ := hacquires latch hlatch
          exact ⟨j + 1, Nat.succ_le_succ hj, rfl⟩

/-- The same for a call without a position, which begins with the root. -/
theorem FindCall.opening {call : FindCall isLeaf findChildNode node root} (hcall : call.unwinding = none)
    (hkey : call.key = key) {i : ℕ}
    (hinternal : ∀ j ≤ i, isLeaf ((fun node => findChildNode node key)^[j] root) = false) :
    ∃ opening rest, call.commands =
        opening ++ .acquire ((fun node => findChildNode node key)^[i + 1] root) :: rest ∧
      Disciplined (Above isLeaf findChildNode) [] opening [(fun node => findChildNode node key)^[i] root] ∧
      ∀ latch, .acquire latch ∈ opening → ∃ j ≤ i, latch = (fun node => findChildNode node key)^[j] root := by
  subst hkey
  obtain ⟨opening, rest, hcommands, hdisciplined, hacquires⟩ := call.descent.opening Frame hinternal
  refine ⟨.acquire root :: opening, rest ++ [.release call.leaf], ?_,
    ⟨Command.allowed_first _ root, hdisciplined⟩, ?_⟩
  · rw [call.commands_of_unpositioned hcall, hcommands, List.append_assoc]
    rfl
  · intro latch hlatch
    rcases List.mem_cons.mp hlatch with hroot | hlatch
    · exact ⟨0, Nat.zero_le i, Command.acquire.inj hroot⟩
    · exact hacquires latch hlatch

/-- A cursor that takes another node for the root has only that one when it wants the root. -/
theorem FindCall.opening_of_unwinding {call : FindCall isLeaf findChildNode node root}
    {unwinding : Unwinding Frame} (hcall : call.unwinding = some unwinding)
    (hlast : node unwinding.last ≠ root) :
    ∃ opening rest, call.commands = opening ++ .acquire root :: rest ∧
      Disciplined (Above isLeaf findChildNode) [] opening [node unwinding.last] := by
  refine ⟨unwinding.upper.reverse.flatMap (unwindFrameCommands node) ++
    [.acquire (node unwinding.last), .access (node unwinding.last) (.erase unwinding.last)],
    .release (node unwinding.last) :: (call.events.map Event.command ++ [.release call.leaf]), ?_, ?_⟩
  · rw [commands, hcall, lockRootCommands, unwindRootFrameCommands, if_pos hlast]
    simp only [List.append_assoc, List.cons_append, List.nil_append]
  · refine (Disciplined.flatMap fun frame _ =>
      .criticalSection _ (node frame) (.erase frame)).append ?_
    exact ⟨Command.allowed_first _ _, List.mem_cons_self, rfl⟩

variable [DecidableEq Frame] {Cursor Thread : Type} [DecidableEq Cursor] [DecidableEq Thread]

variable (key) in
/-- A cursor whose unwinding takes another node for the root acquires latches upwards. With
as many searches as that node is deep it can get into a deadlock: from some reachable state
on, whatever other threads do, none of these threads takes another step. -/
theorem unwinding_deadlocks (htree : IsTree isLeaf (IsChild findChildNode) root) {depth : ℕ}
    (hdepth : 0 < depth)
    (hinternal : ∀ i < depth, isLeaf ((fun node => findChildNode node key)^[i] root) = false)
    (participant : ℕ → Thread)
    (hdistinct : ∀ i j, i ≤ depth → j ≤ depth → participant i = participant j → i = j)
    (sessions : Thread → ThreadSession Cursor isLeaf findChildNode node root)
    (hsearch : ∀ i < depth, ∃ cursor more,
      (sessions (participant i)).requests = (cursor, .find key) :: more ∧
      ((sessions (participant i)).positions cursor).frames = [])
    (hcursor : ∃ cursor searched more, ∃ unwinding : Unwinding Frame,
      (sessions (participant depth)).requests = (cursor, .find searched) :: more ∧
      ((sessions (participant depth)).positions cursor).frames = unwinding.frames ∧
      node unwinding.last = (fun node => findChildNode node key)^[depth] root)
    (data : Node → Guarded Frame) :
    ∃ schedule s, run (step Access.perform) (start (fun t => (sessions t).commands) data) schedule =
        some s ∧
      ∀ later s', run (step Access.perform) s later = some s' →
        ∀ i ≤ depth, participant i ∉ later ∧ s'.todo (participant i) ≠ [] := by
  have hway : ∀ i j, i ≤ depth → j ≤ depth → (fun node => findChildNode node key)^[i] root =
      (fun node => findChildNode node key)^[j] root → i = j := fun i j hi hj =>
    htree.iterate_injective (fun node => ⟨key, rfl⟩) hinternal hi hj
  have hwaiting : ∃ schedule s,
      run (step Access.perform) (start (fun t => (sessions t).commands) data) schedule = some s ∧
      WaitingFrom (fun t => (sessions t).commands) participant
        (fun i => (fun node => findChildNode node key)^[i] root)
        (fun i => if i = depth then root else (fun node => findChildNode node key)^[i + 1] root) 0 depth s := by
    apply exists_waiting (Above isLeaf findChildNode) hdistinct
    intro i hi
    by_cases hlast : i = depth
    · subst hlast
      obtain ⟨cursor, searched, _, unwinding, hrequests, hstack, hlast⟩ := hcursor
      have hissues := (sessions (participant i)).issues
      rw [hrequests] at hissues
      obtain ⟨call, more, hcalls, _, hframes⟩ := hissues.find_first
      have hunwinding := FindCall.unwinding_eq_some (hframes.trans hstack)
      have hne : node unwinding.last ≠ root := by
        rw [hlast]
        exact htree.iterate_ne (fun node => ⟨key, rfl⟩) hdepth hinternal
      obtain ⟨opening, rest, hcommands, hdisciplined⟩ := FindCall.opening_of_unwinding hunwinding hne
      rw [hlast] at hdisciplined
      refine ⟨opening, rest ++ sessionCommands more, ?_, hdisciplined, fun latch _ j hj hdepth => by omega⟩
      rw [ThreadSession.commands, hcalls, if_pos rfl, sessionCommands, List.flatMap_cons, ThreadCall.commands,
        hcommands, List.append_assoc]
      rfl
    · have hlt : i < depth := Nat.lt_of_le_of_ne hi hlast
      obtain ⟨cursor, _, hrequests, hstack⟩ := hsearch i hlt
      have hissues := (sessions (participant i)).issues
      rw [hrequests] at hissues
      obtain ⟨search, more, hcalls, hkey, hframes⟩ := hissues.find_first
      have hunwinding := FindCall.unwinding_eq_none (hframes.trans hstack)
      obtain ⟨opening, rest, hcommands, hdisciplined, hacquires⟩ :=
        FindCall.opening hunwinding hkey fun j (hj : j ≤ i) => hinternal j (by omega)
      refine ⟨opening, rest ++ sessionCommands more, ?_, hdisciplined, ?_⟩
      · rw [ThreadSession.commands, hcalls, if_neg hlast, sessionCommands, List.flatMap_cons,
          ThreadCall.commands, hcommands, List.append_assoc]
        rfl
      · rintro latch hlatch k hk hdepth rfl
        obtain ⟨j, hj, hsame⟩ := hacquires _ hlatch
        have hsame := hway k j hdepth (by omega) hsame
        omega
  obtain ⟨schedule, s, hrun, hwaiting⟩ := hwaiting
  refine ⟨schedule, s, hrun, fun later s' hlater i hi => ?_⟩
  have hdeadlocked := hwaiting.deadlocked fun i hi => by
    by_cases hlast : i = depth
    · exact ⟨0, Nat.zero_le depth, if_pos hlast⟩
    · exact ⟨i + 1, by omega, if_neg hlast⟩
  obtain ⟨habsent, htodo⟩ := (hdeadlocked.of_run hlater).2 (participant i) ⟨i, hi, rfl⟩
  refine ⟨habsent, ?_⟩
  obtain ⟨rest, hwaits⟩ := hwaiting.waits i (Nat.zero_le i) hi
  rw [htodo, hwaits]
  exact List.cons_ne_nil _ _

/-- A stack of 33 frames, of which two are left. -/
def unwindingToLeaf : Unwinding Nat where
  left := [0, 1]
  last := 2
  upper := (List.range 30).map (· + 3)
  fits := by decide
  rounds := by decide

/-- The search of a cursor with its bottom frame at the root, and the one that is taken for the
root at the leaf. -/
def findFromLeaf : FindCall (fun node : Nat => decide (1 ≤ node)) (fun node _ => node + 1)
    (fun frame : Nat => min frame 1) 0 where
  key := .repeated 1 7
  unwinding := some unwindingToLeaf
  events := findBelowRoot.events
  leaf := 1
  descent := descent_belowRoot
  inTree := fun _ _ frame _ => isTree_belowRoot frame

/-- The same search by a cursor without a position. -/
def findFromRoot : FindCall (fun node : Nat => decide (1 ≤ node)) (fun node _ => node + 1)
    (fun frame : Nat => min frame 1) 0 where
  key := .repeated 1 7
  unwinding := none
  events := findBelowRoot.events
  leaf := 1
  descent := descent_belowRoot
  inTree := fun _ h => nomatch h

theorem issues_fromRoot : Issues (fun _ : Unit => ⟨.empty, []⟩) [((), .find findFromRoot.key)]
    [.find findFromRoot] (Function.update (fun _ => ⟨.empty, []⟩) () ⟨findFromRoot.key, []⟩) :=
  .find findFromRoot rfl .nil

theorem issues_fromLeaf : Issues (fun _ : Unit => ⟨.empty, unwindingToLeaf.frames⟩)
    [((), .find findFromLeaf.key)] [.find findFromLeaf]
    (Function.update (fun _ => ⟨.empty, unwindingToLeaf.frames⟩) () ⟨findFromLeaf.key, [0, 1]⟩) :=
  .find findFromLeaf rfl .nil

/-- One thread searches from the root, another one with a cursor that is unwound first. -/
def searches (t : Nat) : ThreadSession Unit (fun node : Nat => decide (1 ≤ node)) (fun node _ => node + 1)
    (fun frame : Nat => min frame 1) 0 :=
  if t = 0 then ⟨_, _, _, _, issues_fromRoot⟩
  else if t = 1 then ⟨_, _, _, _, issues_fromLeaf⟩
  else ⟨fun _ => ⟨.empty, []⟩, [], [], _, .nil⟩

/-- One search and one such cursor are enough below the root. -/
theorem unwinding_deadlocks_atLeaf :
    ∃ schedule s, run (step Access.perform) (start (fun t => (searches t).commands)
          fun node => ⟨[node], slow.LeafNode.construct⟩) schedule = some s ∧
      ∀ later s', run (step Access.perform) s later = some s' →
        ∀ i ≤ 1, i ∉ later ∧ s'.todo i ≠ [] := by
  apply unwinding_deadlocks (.repeated 1 7) isTree_twoLevels Nat.one_pos
  · intro i hi
    obtain rfl : i = 0 := by omega
    rfl
  · exact fun i j _ _ h => h
  · intro i hi
    obtain rfl : i = 0 := by omega
    exact ⟨(), [], rfl, rfl⟩
  · exact ⟨(), .repeated 1 7, [], unwindingToLeaf, rfl, rfl, rfl⟩

end tupl.pvt.ops
