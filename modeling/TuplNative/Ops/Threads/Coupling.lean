import Mathlib.Logic.Function.Iterate
import Mathlib.Tactic.IntervalCases
import TuplNative.Ops.Threads

open Latching

namespace tupl.pvt.ops

variable {Node Frame : Type} {isLeaf : Node → Bool} {findChildNode : Node → Bytes → Node}
  {node : Frame → Node} {root : Node}

/-- Going down a tree never leads back. -/
theorem IsTree.iterate_ne {next : Node → Node} {start : Node}
    (htree : IsTree isLeaf (IsChild findChildNode) start)
    (hnext : ∀ node, IsChild findChildNode node (next node)) {depth : ℕ} (hdepth : 0 < depth)
    (hinternal : ∀ i < depth, isLeaf (next^[i] start) = false) : next^[depth] start ≠ start := by
  induction htree with
  | leaf hleaf =>
    have hroot := hinternal 0 hdepth
    rw [Function.iterate_zero_apply, hleaf] at hroot
    cases hroot
  | @internal start _ _ ih =>
    intro hback
    have hround : next^[depth] (next start) = next start := by
      rw [← Function.iterate_succ_apply, Function.iterate_succ_apply', hback]
    refine ih _ (hnext start) (fun i hi => ?_) hround
    rw [← Function.iterate_succ_apply]
    rcases Nat.lt_or_ge (i + 1) depth with hlt | hge
    · exact hinternal (i + 1) hlt
    · obtain rfl : i.succ = depth := by omega
      rw [hback]
      exact hinternal 0 hdepth

/-- Every node on the way down is the root of a tree. -/
theorem IsTree.iterate {next : Node → Node} {start : Node}
    (htree : IsTree isLeaf (IsChild findChildNode) start)
    (hnext : ∀ node, IsChild findChildNode node (next node)) {depth : ℕ}
    (hinternal : ∀ i < depth, isLeaf (next^[i] start) = false) :
    IsTree isLeaf (IsChild findChildNode) (next^[depth] start) := by
  induction depth with
  | zero => exact htree
  | succ depth ih =>
    rw [Function.iterate_succ_apply']
    cases ih fun i hi => hinternal i (Nat.lt_succ_of_lt hi) with
    | leaf hleaf =>
      rw [hinternal depth (Nat.lt_succ_self depth)] at hleaf
      cases hleaf
    | internal _ hchildren => exact hchildren _ (hnext _)

/-- The nodes on the way down are different ones. -/
theorem IsTree.iterate_injective {next : Node → Node} {start : Node}
    (htree : IsTree isLeaf (IsChild findChildNode) start)
    (hnext : ∀ node, IsChild findChildNode node (next node)) {depth : ℕ}
    (hinternal : ∀ i < depth, isLeaf (next^[i] start) = false) {i j : ℕ} (hi : i ≤ depth) (hj : j ≤ depth)
    (heq : next^[i] start = next^[j] start) : i = j := by
  wlog hlt : i < j generalizing i j
  · rcases Nat.lt_or_ge j i with hgt | hge
    · exact (this hj hi heq.symm hgt).symm
    · omega
  exfalso
  obtain ⟨distance, rfl⟩ := Nat.exists_eq_add_of_lt hlt
  have hsubtree := htree.iterate hnext fun k (hk : k < i) => hinternal k (by omega)
  have hbelow : ∀ k < distance + 1, isLeaf (next^[k] (next^[i] start)) = false := by
    intro k hk
    rw [← Function.iterate_add_apply]
    exact hinternal _ (by omega)
  have hback : next^[distance + 1] (next^[i] start) = next^[i] start := by
    rw [← Function.iterate_add_apply, heq]
    congr 1
    omega
  exact hsubtree.iterate_ne hnext (Nat.succ_pos _) hbelow hback

variable (Frame) in
/-- The way of a descent goes on by one child after the other. -/
theorem Descent.way_eq {next : Node → Node} {start leaf : Node} {events : List (Event Node)}
    (h : Descent isLeaf next start events leaf) :
    ∃ depth, (∀ i < depth, isLeaf (next^[i] start) = false) ∧ leaf = next^[depth] start ∧
      way (events.map (Event.command : Event Node → Command Node (Access Frame))) =
        (List.range depth).map fun i => next^[i + 1] start := by
  induction h with
  | leaf hleaf => exact ⟨0, fun i hi => (Nat.not_lt_zero i hi).elim, rfl, rfl⟩
  | @child start leaf events hinternal _ _ ih =>
    obtain ⟨depth, hdepth, hleaf, hway⟩ := ih
    refine ⟨depth + 1, fun i hi => ?_, hleaf, ?_⟩
    · cases i with
      | zero => exact hinternal
      | succ i => exact hdepth i (Nat.lt_of_succ_lt_succ hi)
    · change next start :: way (events.map Event.command) = _
      rw [hway, List.range_succ_eq_map, List.map_cons, List.map_map]
      rfl

/-- The node that was latched last stays latched until the next one is there. -/
theorem Descent.handOverHand [DecidableEq Node] {next : Node → Node} {start leaf : Node}
    {events : List (Event Node)} (h : Descent isLeaf next start events leaf)
    {done rest : List (Command Node (Access Frame))} {passed : List Node} {latch : Node}
    (hparts : done ++ rest = events.map Event.command) (hpassed : start :: way done = passed ++ [latch])
    (hahead : way rest ≠ []) : latch ∈ done.foldl Command.holding [start] := by
  induction h generalizing done passed with
  | @leaf node hleaf =>
    have hway : way done ++ way rest = [] := by
      rw [← way_append, hparts]
      rfl
    exact absurd (List.append_eq_nil_iff.mp hway).2 hahead
  | @child node leaf events hinternal hne _ ih =>
    have hlast : (node :: way done).getLast? = some latch := by
      rw [hpassed, List.getLast?_concat]
    rcases done with _ | ⟨tested, _ | ⟨requested, _ | ⟨released, done⟩⟩⟩
    · obtain rfl : node = latch := Option.some.inj hlast
      exact List.mem_cons_self
    · simp only [List.map_cons, List.cons_append, List.cons.injEq] at hparts
      obtain ⟨rfl, _⟩ := hparts
      obtain rfl : node = latch := Option.some.inj hlast
      exact List.mem_cons_self
    · simp only [List.map_cons, List.cons_append, List.cons.injEq] at hparts
      obtain ⟨rfl, rfl, _⟩ := hparts
      obtain rfl : next node = latch := Option.some.inj hlast
      exact List.mem_cons_self
    · simp only [List.map_cons, List.cons_append, List.cons.injEq] at hparts
      obtain ⟨rfl, rfl, rfl, hparts⟩ := hparts
      have hleft : [next node, node].erase node = [next node] := by
        rw [List.erase_cons_tail (by simpa using hne), List.erase_cons_head]
      have hbelow : node :: next node :: way done = passed ++ [latch] := hpassed
      change latch ∈ done.foldl Command.holding ([next node, node].erase node)
      rw [hleft]
      cases passed with
      | nil => cases hbelow
      | cons first passed => exact ih hparts (List.cons.inj hbelow).2

namespace FindCall

variable [DecidableEq Node] {call : FindCall isLeaf findChildNode node root}

theorem commands_of_unpositioned (hcall : call.unwinding = none) :
    call.commands = .acquire root :: (call.events.map Event.command ++ [.release call.leaf]) := by
  rw [commands, hcall]
  rfl

/-- The way of a call without a position: from the root on by one child after the other. -/
theorem way_commands (hcall : call.unwinding = none) :
    ∃ depth, (∀ i < depth, isLeaf ((fun node => findChildNode node call.key)^[i] root) = false) ∧
      way call.commands = (List.range (depth + 1)).map fun i =>
        (fun node => findChildNode node call.key)^[i] root := by
  obtain ⟨depth, hdepth, _, hway⟩ := call.descent.way_eq Frame
  refine ⟨depth, hdepth, ?_⟩
  rw [commands_of_unpositioned hcall, List.range_succ_eq_map, List.map_cons, List.map_map]
  change root :: way (call.events.map Event.command ++ [.release call.leaf]) = _
  rw [way_append, hway]
  exact congrArg _ (List.append_nil _)

theorem disciplined_of_unpositioned (hcall : call.unwinding = none) :
    Disciplined (Above isLeaf findChildNode) [] call.commands [] := by
  refine call.disciplined (fun _ _ h => h) fun unwinding hunwinding => ?_
  rw [hcall] at hunwinding
  cases hunwinding

theorem way_head (hcall : call.unwinding = none) : (way call.commands).head? = some root := by
  rw [commands_of_unpositioned hcall]
  rfl

theorem way_nodup (htree : IsTree isLeaf (IsChild findChildNode) root) (hcall : call.unwinding = none) :
    (way call.commands).Nodup := by
  obtain ⟨depth, hdepth, hway⟩ := way_commands hcall
  rw [hway]
  refine List.Nodup.map_on (fun i hi j hj heq => ?_) List.nodup_range
  exact htree.iterate_injective (fun node => ⟨call.key, rfl⟩) hdepth
    (Nat.le_of_lt_succ (List.mem_range.mp hi)) (Nat.le_of_lt_succ (List.mem_range.mp hj)) heq

theorem handOverHand (hcall : call.unwinding = none) : HandOverHand call.commands := by
  intro done rest passed latch hparts hpassed hahead
  rw [commands_of_unpositioned hcall] at hparts
  cases done with
  | nil => cases List.nil_eq_append_iff.mp hpassed |>.2
  | cons first done =>
    rw [List.cons_append, List.cons.injEq] at hparts
    obtain ⟨rfl, hparts⟩ := hparts
    rcases List.append_eq_append_iff.mp hparts with ⟨within, hdown, rfl⟩ | ⟨beyond, _, hbeyond⟩
    · rw [way_append] at hahead
      refine call.descent.handOverHand hdown.symm hpassed fun hnone => hahead ?_
      rw [hnone]
      rfl
    · have hnone : way beyond ++ way rest = [] := by
        rw [← way_append, ← hbeyond]
        rfl
      exact absurd (List.append_eq_nil_iff.mp hnone).2 hahead

end FindCall

section Overtaking

variable [DecidableEq Node] {Thread : Type} [DecidableEq Thread]

omit [DecidableEq Node] in
theorem isInfix_map_range {f : ℕ → Node} {n : ℕ} {parent next : Node} :
    [parent, next] <:+: (List.range n).map f ↔ ∃ i, i + 1 < n ∧ f i = parent ∧ f (i + 1) = next := by
  rw [List.infix_iff_getElem?]
  constructor
  · rintro ⟨i, hlength, hget⟩
    rw [List.length_cons, List.length_singleton, List.length_map, List.length_range] at hlength
    have hfirst := hget 0 (by simp)
    have hsecond := hget 1 (by simp)
    rw [List.getElem?_map, List.getElem?_range (by omega)] at hfirst hsecond
    exact ⟨i, by omega, by simpa using hfirst, by simpa [Nat.add_comm 1 i] using hsecond⟩
  · rintro ⟨i, hi, rfl, rfl⟩
    refine ⟨i, ?_, fun j hj => ?_⟩
    · rw [List.length_cons, List.length_singleton, List.length_map, List.length_range]
      omega
    · rw [List.length_cons, List.length_singleton] at hj
      rw [List.getElem?_map, List.getElem?_range (by omega)]
      interval_cases j
      · rw [Nat.zero_add]
        rfl
      · rw [Nat.add_comm]
        rfl

/-- Where nodes have one parent, ways that share a node share the one before it. -/
theorem FindCall.parent_isInfix (htree : IsTree isLeaf (IsChild findChildNode) root)
    (hparent : ∀ parent parent' next, Above isLeaf findChildNode parent next →
      Above isLeaf findChildNode parent' next → parent = parent')
    {call other : FindCall isLeaf findChildNode node root} (hcall : call.unwinding = none)
    (hother : other.unwinding = none) {parent next : Node} (hway : [parent, next] <:+: way call.commands)
    (hnext : next ∈ way other.commands) : [parent, next] <:+: way other.commands := by
  obtain ⟨depth, hdepth, hmine⟩ := call.way_commands hcall
  obtain ⟨depth', hdepth', htheirs⟩ := other.way_commands hother
  rw [hmine, isInfix_map_range] at hway
  obtain ⟨i, hi, rfl, rfl⟩ := hway
  rw [htheirs] at hnext ⊢
  obtain ⟨j, hj, hmeet⟩ := List.mem_map.mp hnext
  have habove : Above isLeaf findChildNode ((fun node => findChildNode node call.key)^[i] root)
      ((fun node => findChildNode node call.key)^[i + 1] root) := by
    rw [Function.iterate_succ_apply']
    exact ⟨hdepth i (by omega), call.key, rfl⟩
  cases j with
  | zero =>
    have hback := htree.iterate_ne (fun node => ⟨call.key, rfl⟩) (Nat.succ_pos i) fun k hk =>
      hdepth k (by omega)
    exact absurd hmeet.symm hback
  | succ j =>
    have hj := Nat.lt_of_succ_lt_succ (List.mem_range.mp hj)
    have habove' : Above isLeaf findChildNode ((fun node => findChildNode node other.key)^[j] root)
        ((fun node => findChildNode node other.key)^[j + 1] root) := by
      rw [Function.iterate_succ_apply']
      exact ⟨hdepth' j hj, other.key, rfl⟩
    rw [hmeet] at habove'
    rw [isInfix_map_range, hparent _ _ _ habove habove', ← hmeet]
    exact ⟨j, Nat.succ_lt_succ hj, rfl, rfl⟩

/-- Finds do not overtake each other. In every order of steps, those that have got to a
node are the first of those that got the root and whose way leads to the node. -/
theorem finds_inOrder (htree : IsTree isLeaf (IsChild findChildNode) root)
    (hparent : ∀ parent parent' next, Above isLeaf findChildNode parent next →
      Above isLeaf findChildNode parent' next → parent = parent')
    (calls : Thread → FindCall isLeaf findChildNode node root) (hcalls : ∀ t, (calls t).unwinding = none)
    (data : Node → Guarded Frame) [DecidableEq Frame] {schedule : List Thread}
    {s : System Thread Node (Access Frame) (Guarded Frame)}
    (hrun : run (step Access.perform) (start (fun t => (calls t).commands) data) schedule = some s)
    {t : Thread} {reached : Node} (hreached : reached ∈ way (calls t).commands) :
    s.arrivals reached <+: (s.arrivals root).filter fun u => decide (reached ∈ way (calls u).commands) :=
  arrivals_isPrefix hrun (fun t => (calls t).way_nodup htree (hcalls t))
    (fun t => (calls t).disciplined_of_unpositioned (hcalls t))
    (fun t => (calls t).handOverHand (hcalls t))
    (fun t u _ _ hway hnext => FindCall.parent_isInfix htree hparent (hcalls t) (hcalls u) hway hnext)
    ((calls t).way_head (hcalls t)) hreached

/-- The second search gets the root while the first one is at the leaf. -/
theorem finds_inOrder_twoThreads :
    ∃ s, run (step Access.perform) (start (fun _ : Bool => findBelowRoot.commands)
          fun _ => ⟨[], slow.LeafNode.construct⟩) [true, true, true, true, false] = some s ∧
      s.arrivals 1 <+: (s.arrivals 0).filter fun _ => decide (1 ∈ way findBelowRoot.commands) := by
  have hparent : ∀ parent parent' next : Nat,
      Above (fun node => decide (1 ≤ node)) (fun node _ => node + 1) parent next →
      Above (fun node => decide (1 ≤ node)) (fun node _ => node + 1) parent' next → parent = parent' := by
    rintro parent parent' next ⟨_, _, hnext⟩ ⟨_, _, hnext'⟩
    exact Nat.succ.inj (hnext.trans hnext'.symm)
  have hrun : run (step Access.perform) (start (fun _ : Bool => findBelowRoot.commands)
      fun _ => ⟨[], slow.LeafNode.construct⟩) [true, true, true, true, false] = some _ := rfl
  exact ⟨_, hrun, finds_inOrder isTree_twoLevels hparent (fun _ => findBelowRoot) (fun _ => rfl) _ hrun
    (t := true) (by decide)⟩

end Overtaking

section Coupling

variable [DecidableEq Node]

variable (Frame) in
/-- An event has recorded the latches that the commands before it leave. -/
theorem Descent.held_eq {next : Node → Node} {start leaf : Node} {events : List (Event Node)}
    (h : Descent isLeaf next start events leaf) {i : ℕ} {event : Event Node}
    (hevent : events[i]? = some event) :
    event.held =
      ((events.take i).map (Event.command : Event Node → Command Node (Access Frame))).foldl
        Command.holding [start] := by
  induction h generalizing i with
  | leaf hleaf =>
    cases i with
    | zero =>
      obtain rfl := Option.some.inj hevent
      rfl
    | succ i => cases hevent
  | @child node leaf events hinternal hne _ ih =>
    match i with
    | 0 =>
      obtain rfl := Option.some.inj hevent
      rfl
    | 1 =>
      obtain rfl := Option.some.inj hevent
      rfl
    | 2 =>
      obtain rfl := Option.some.inj hevent
      rfl
    | i + 3 =>
      have hleft : [next node, node].erase node = [next node] := by
        rw [List.erase_cons_tail (by simpa using hne), List.erase_cons_head]
      rw [ih hevent, ← hleft]
      rfl

namespace FindCall

variable {call : FindCall isLeaf findChildNode node root}

/-- The events that `find` records for a cursor without a position. -/
def recorded (call : FindCall isLeaf findChildNode node root) : List (Event Node) :=
  ⟨.requested, root, []⟩ :: call.events ++ [⟨.released, call.leaf, [call.leaf]⟩]

omit [DecidableEq Node] in
theorem recorded_coupled : ∀ event ∈ call.recorded, event.Coupled isLeaf (IsChild findChildNode) :=
  call.descent.search_coupled fun _ _ => ⟨call.key, rfl⟩

theorem commands_eq_recorded (hcall : call.unwinding = none) :
    call.commands = call.recorded.map Event.command := by
  rw [commands_of_unpositioned hcall, recorded, List.map_append, List.map_cons]
  rfl

theorem recorded_held {i : ℕ} {event : Event Node} (hevent : call.recorded[i]? = some event) :
    event.held =
      heldAfter ((call.recorded.take i).map (Event.command : Event Node → Command Node (Access Frame))) := by
  cases i with
  | zero =>
    obtain rfl := Option.some.inj hevent
    rfl
  | succ i =>
    let released : List (Event Node) := [⟨.released, call.leaf, [call.leaf]⟩]
    have hrest : (call.events ++ released)[i]? = some event := hevent
    change _ = (((call.events ++ released).take i).map Event.command).foldl Command.holding [root]
    rcases Nat.lt_or_ge i call.events.length with hlt | hge
    · rw [List.getElem?_append_left hlt] at hrest
      rw [List.take_append_of_le_length hlt.le, call.descent.held_eq Frame hrest]
    · obtain rfl : i = call.events.length := by
        have hlength := (List.getElem?_eq_some_iff.mp hrest).1
        rw [List.length_append, List.length_singleton] at hlength
        omega
      rw [List.getElem?_append_right (Nat.le_refl _), Nat.sub_self] at hrest
      obtain rfl := Option.some.inj hrest
      rw [List.take_left, (call.descent.disciplined Frame).left_eq]

end FindCall

variable {Thread : Type} [DecidableEq Thread] [DecidableEq Frame]

/-- In every order of steps the next event of a thread finds the latches that it finds when
the thread is alone, and no others: the coupling has no gap for another thread. -/
theorem finds_coupled (calls : Thread → FindCall isLeaf findChildNode node root)
    (hcalls : ∀ t, (calls t).unwinding = none) (data : Node → Guarded Frame) {schedule : List Thread}
    {s : System Thread Node (Access Frame) (Guarded Frame)}
    (hrun : run (step Access.perform) (start (fun t => (calls t).commands) data) schedule = some s)
    {t : Thread} {event : Event Node} (hevent : (calls t).recorded[schedule.count t]? = some event) :
    (s.todo t).head? = some event.command ∧ event.Coupled isLeaf (IsChild findChildNode) ∧
      ∀ latch, s.holder latch = some t ↔ latch ∈ event.held := by
  have hdisciplined := fun t => (calls t).disciplined_of_unpositioned (hcalls t)
  refine ⟨?_, FindCall.recorded_coupled event (List.mem_of_getElem? hevent), fun latch => ?_⟩
  · rw [(run_todo hrun t).1, (calls t).commands_eq_recorded (hcalls t), ← List.map_drop, List.head?_map,
      List.head?_drop, hevent]
    rfl
  · rw [run_holder hdisciplined hrun, (calls t).commands_eq_recorded (hcalls t), ← List.map_take,
      FindCall.recorded_held hevent]

/-- The first search is at the leaf when the second one has got the root. -/
theorem finds_coupled_twoThreads :
    ∃ s, run (step Access.perform) (start (fun _ : Bool => findBelowRoot.commands)
          fun _ => ⟨[], slow.LeafNode.construct⟩) [true, true, true, true, false] = some s ∧
      (s.todo true).head? = some (.access 1 .test) ∧
      Event.Coupled (fun node => decide (1 ≤ node)) (IsChild fun node _ => node + 1) ⟨.tested, 1, [1]⟩ ∧
      ∀ latch, s.holder latch = some true ↔ latch ∈ [1] := by
  have hrun : run (step Access.perform) (start (fun _ : Bool => findBelowRoot.commands)
      fun _ => ⟨[], slow.LeafNode.construct⟩) [true, true, true, true, false] = some _ := rfl
  have hevent : findBelowRoot.recorded[List.count true [true, true, true, true, false]]? =
      some ⟨.tested, 1, [1]⟩ := rfl
  exact ⟨_, hrun, finds_coupled (fun _ => findBelowRoot) (fun _ => rfl) _ hrun hevent⟩

end Coupling

end tupl.pvt.ops
