import TuplNative.Latching.Deadlock

namespace Latching

variable {Thread Latch Access Data : Type}

/-- What one thread did, in that order. -/
def madeBy {α : Type} [DecidableEq Thread] (t : Thread) (history : List (Thread × α)) : List α :=
  (history.filter fun made => decide (made.1 = t)).map Prod.snd

section madeBy

variable {α : Type} [DecidableEq Thread] {t u : Thread} {a : α} {history rest : List (Thread × α)}

theorem madeBy_append : madeBy t (history ++ rest) = madeBy t history ++ madeBy t rest := by
  rw [madeBy, List.filter_append, List.map_append]
  rfl

theorem madeBy_map_self (did : List α) : madeBy t (did.map (Prod.mk t)) = did := by
  rw [madeBy, List.filter_eq_self.mpr, List.map_map]
  · exact List.map_id did
  · intro made hmade
    obtain ⟨a, _, rfl⟩ := List.mem_map.mp hmade
    exact decide_eq_true rfl

theorem madeBy_map_of_ne (hne : u ≠ t) (did : List α) : madeBy t (did.map (Prod.mk u)) = [] := by
  rw [madeBy, List.filter_eq_nil_iff.mpr, List.map_nil]
  intro made hmade
  obtain ⟨a, _, rfl⟩ := List.mem_map.mp hmade
  simpa using hne

/-- What a thread did of some kind. -/
theorem madeBy_filterMap {β : Type} (f : α → Option β) (history : List (Thread × α)) :
    madeBy t (history.filterMap fun made => (f made.2).map (Prod.mk made.1)) =
      (madeBy t history).filterMap f := by
  induction history with
  | nil => rfl
  | cons made history ih =>
    obtain ⟨u, a⟩ := made
    have hfirst : ((u, a) :: history).filterMap (fun made => (f made.2).map (Prod.mk made.1)) =
        (f a).toList.map (Prod.mk u) ++ history.filterMap fun made => (f made.2).map (Prod.mk made.1) := by
      rw [List.filterMap_cons]
      cases f a <;> rfl
    have hmade : madeBy t ((u, a) :: history) = madeBy t ([a].map (Prod.mk u)) ++ madeBy t history := by
      rw [← madeBy_append]
      rfl
    rw [hfirst, madeBy_append, ih, hmade, List.filterMap_append]
    by_cases hu : u = t
    · subst hu
      rw [madeBy_map_self, madeBy_map_self, List.filterMap_cons]
      cases f a <;> rfl
    · rw [madeBy_map_of_ne hu, madeBy_map_of_ne hu]
      rfl

end madeBy

variable [DecidableEq Latch]

/-- What a command does with the data of a latch. -/
def Command.accessTo (latch : Latch) : Command Latch Access → Option Access
  | .access other how => if other = latch then some how else none
  | _ => none

/-- What a program does with the data of a latch, in that order. -/
def accessesTo (latch : Latch) (program : List (Command Latch Access)) : List Access :=
  program.filterMap (Command.accessTo latch)

theorem accessesTo_append (latch : Latch) (program rest : List (Command Latch Access)) :
    accessesTo latch (program ++ rest) = accessesTo latch program ++ accessesTo latch rest :=
  List.filterMap_append

theorem accessesTo_cons (latch : Latch) (command : Command Latch Access)
    (program : List (Command Latch Access)) :
    accessesTo latch (command :: program) = (command.accessTo latch).toList ++ accessesTo latch program := by
  rw [accessesTo, List.filterMap_cons]
  cases command.accessTo latch <;> rfl

theorem Command.performed_apply (perform : Access → Data → Data) (data : Latch → Data)
    (command : Command Latch Access) (latch : Latch) :
    command.performed perform data latch =
      (command.accessTo latch).toList.foldl (fun data how => perform how data) (data latch) := by
  cases command with
  | acquire other => rfl
  | release other => rfl
  | access other how =>
    rw [Command.performed, Command.accessTo]
    by_cases hother : other = latch
    · subst hother
      rw [Function.update_self, if_pos rfl]
      rfl
    · rw [Function.update_of_ne (Ne.symm hother), if_neg hother]
      rfl

variable [DecidableEq Thread]

/-- What the threads do with the data of a latch when they take their steps in the order
of a schedule. -/
def history (latch : Latch) :
    (Thread → List (Command Latch Access)) → List Thread → List (Thread × Access)
  | _, [] => []
  | todo, t :: schedule =>
    match todo t with
    | [] => history latch todo schedule
    | command :: rest =>
      (command.accessTo latch).toList.map (Prod.mk t) ++ history latch (Function.update todo t rest) schedule

variable {perform : Access → Data → Data} {schedule : List Thread}
  {s s' : System Thread Latch Access Data}

/-- The data of a latch is what the accesses make of it one after the other. -/
theorem run_data (hrun : run (step perform) s schedule = some s') (latch : Latch) :
    s'.data latch =
      (history latch s.todo schedule).foldl (fun data made => perform made.2 data) (s.data latch) := by
  induction schedule generalizing s with
  | nil =>
    cases hrun
    rfl
  | cons t schedule ih =>
    rw [run.run_cons] at hrun
    obtain ⟨next, hstep, hrest⟩ := Option.bind_eq_some_iff.mp hrun
    obtain ⟨command, rest, htodo, _, rfl⟩ := step_eq_some hstep
    rw [ih hrest, history, htodo]
    dsimp only
    rw [List.foldl_append, List.foldl_map, System.after_todo, System.after_data, Command.performed_apply]

/-- Each thread has made the accesses of its program, in that order, but those that it
still has to make. -/
theorem madeBy_history (hrun : run (step perform) s schedule = some s') (latch : Latch) (t : Thread) :
    madeBy t (history latch s.todo schedule) ++ accessesTo latch (s'.todo t) =
      accessesTo latch (s.todo t) := by
  induction schedule generalizing s with
  | nil =>
    cases hrun
    rfl
  | cons u schedule ih =>
    rw [run.run_cons] at hrun
    obtain ⟨next, hstep, hrest⟩ := Option.bind_eq_some_iff.mp hrun
    obtain ⟨command, rest, htodo, _, rfl⟩ := step_eq_some hstep
    have hlater := ih hrest
    rw [System.after_todo] at hlater
    rw [history, htodo]
    dsimp only
    rw [madeBy_append, List.append_assoc, hlater]
    by_cases hu : u = t
    · subst hu
      rw [madeBy_map_self, Function.update_self, htodo, accessesTo_cons]
    · rw [madeBy_map_of_ne hu, List.nil_append, Function.update_of_ne (Ne.symm hu)]

end Latching
