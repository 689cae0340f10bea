import Mathlib.Logic.Function.Basic
import TuplNative.Run

namespace Latching

/-- What a thread does next. An access reads or changes what the latch guards. -/
inductive Command (Latch Access : Type) where
  | acquire (latch : Latch)
  | release (latch : Latch)
  | access (latch : Latch) (access : Access)
deriving DecidableEq, Repr

/-- Threads with the commands that they have not run yet. A latch has one holder at most.
The arrivals are a history: the threads that acquired each latch, in that order. -/
structure System (Thread Latch Access Data : Type) where
  todo : Thread → List (Command Latch Access)
  holder : Latch → Option Thread
  data : Latch → Data
  arrivals : Latch → List Thread

variable {Thread Latch Access Data : Type}

/-- All latches are free and no command has run. -/
def start (programs : Thread → List (Command Latch Access)) (data : Latch → Data) :
    System Thread Latch Access Data where
  todo := programs
  holder _ := none
  data := data
  arrivals _ := []

/-- A latch is acquired while it is free, and only its holder releases it or gets at its
data. -/
def Command.Ready (holder : Latch → Option Thread) (t : Thread) : Command Latch Access → Prop
  | .acquire latch => holder latch = none
  | .release latch => holder latch = some t
  | .access latch _ => holder latch = some t

instance [DecidableEq Thread] (holder : Latch → Option Thread) (t : Thread) :
    (command : Command Latch Access) → Decidable (command.Ready holder t)
  | .acquire latch => inferInstanceAs (Decidable (holder latch = none))
  | .release latch => inferInstanceAs (Decidable (holder latch = some t))
  | .access latch _ => inferInstanceAs (Decidable (holder latch = some t))

section Step

variable [DecidableEq Thread] [DecidableEq Latch]

/-- The system once a thread has run its next command. -/
def System.after (perform : Access → Data → Data) (s : System Thread Latch Access Data) (t : Thread)
    (rest : List (Command Latch Access)) : Command Latch Access → System Thread Latch Access Data
  | .acquire latch =>
    { s with
      todo := Function.update s.todo t rest
      holder := Function.update s.holder latch (some t)
      arrivals := Function.update s.arrivals latch (s.arrivals latch ++ [t]) }
  | .release latch =>
    { s with
      todo := Function.update s.todo t rest
      holder := Function.update s.holder latch none }
  | .access latch access =>
    { s with
      todo := Function.update s.todo t rest
      data := Function.update s.data latch (perform access (s.data latch)) }

/-- The thread runs its next command. It has no step while it waits, nor once it is done. -/
def step (perform : Access → Data → Data) (s : System Thread Latch Access Data) (t : Thread) :
    Option (System Thread Latch Access Data) :=
  match s.todo t with
  | [] => none
  | command :: rest => if command.Ready s.holder t then some (s.after perform t rest command) else none

variable {perform : Access → Data → Data} {s s' : System Thread Latch Access Data} {t : Thread}
  {command : Command Latch Access} {rest : List (Command Latch Access)}

@[simp] theorem System.after_todo :
    (s.after perform t rest command).todo = Function.update s.todo t rest := by
  cases command <;> rfl

theorem step_of_ready (htodo : s.todo t = command :: rest) (hready : command.Ready s.holder t) :
    step perform s t = some (s.after perform t rest command) := by
  rw [step, htodo]
  exact if_pos hready

/-- Everything that a step can do. -/
theorem step_eq_some (hstep : step perform s t = some s') :
    ∃ command rest, s.todo t = command :: rest ∧ command.Ready s.holder t ∧
      s' = s.after perform t rest command := by
  unfold step at hstep
  split at hstep
  · cases hstep
  · rename_i command rest htodo
    by_cases hready : command.Ready s.holder t
    · rw [if_pos hready] at hstep
      exact ⟨command, rest, htodo, hready, (Option.some.inj hstep).symm⟩
    · rw [if_neg hready] at hstep
      cases hstep

end Step

section Discipline

variable [DecidableEq Latch]

/-- The latches that are held after a command. -/
def Command.holding (held : List Latch) : Command Latch Access → List Latch
  | .acquire latch => latch :: held
  | .release latch => held.erase latch
  | .access _ _ => held

/-- The latches that are held after a number of commands. -/
def heldAfter (program : List (Command Latch Access)) : List Latch :=
  program.foldl Command.holding []

/-- What a thread that holds the latches may do: acquire one that comes after each of
them, and release or use one of them. -/
def Command.Allowed (before : Latch → Latch → Prop) (held : List Latch) : Command Latch Access → Prop
  | .acquire latch => latch ∉ held ∧ ∀ other ∈ held, before other latch
  | .release latch => latch ∈ held
  | .access latch _ => latch ∈ held

/-- A program all of whose commands are allowed, with the latches that are held when it
begins and when it ends. -/
def Disciplined (before : Latch → Latch → Prop) :
    List Latch → List (Command Latch Access) → List Latch → Prop
  | held, [], left => held = left
  | held, command :: rest, left =>
    command.Allowed before held ∧ Disciplined before (command.holding held) rest left

variable {before : Latch → Latch → Prop} {held middle left : List Latch}
  {program rest : List (Command Latch Access)} {command : Command Latch Access}

theorem Disciplined.append (hprogram : Disciplined before held program middle)
    (hrest : Disciplined before middle rest left) : Disciplined before held (program ++ rest) left := by
  induction program generalizing held with
  | nil =>
    obtain rfl := hprogram
    exact hrest
  | cons command program ih => exact ⟨hprogram.1, ih hprogram.2⟩

omit [DecidableEq Latch] in
/-- Whoever holds nothing may acquire anything. -/
theorem Command.allowed_first (before : Latch → Latch → Prop) (latch : Latch) :
    (Command.acquire latch : Command Latch Access).Allowed before [] :=
  ⟨List.not_mem_nil, fun _ hother => (List.not_mem_nil hother).elim⟩

theorem Disciplined.criticalSection (before : Latch → Latch → Prop) (latch : Latch) (how : Access) :
    Disciplined before [] [.acquire latch, .access latch how, .release latch] [] :=
  ⟨Command.allowed_first before latch, List.mem_cons_self, List.mem_cons_self, List.erase_cons_head _ _⟩

/-- The next latch is acquired before the last one is released. -/
theorem Disciplined.handOver {latch next : Latch} (how : Access) (hbefore : before latch next)
    (hne : next ≠ latch) :
    Disciplined before [latch] [.access latch how, .acquire next, .release latch] [next] := by
  have hfree : next ∉ [latch] := fun hmem => hne (List.mem_singleton.mp hmem)
  have hallowed : ∀ other ∈ [latch], before other next := by
    intro other hother
    obtain rfl := List.mem_singleton.mp hother
    exact hbefore
  have hleft : [next, latch].erase latch = [next] := by
    rw [List.erase_cons_tail (by simpa using hne), List.erase_cons_head]
  exact ⟨List.mem_cons_self, ⟨hfree, hallowed⟩, List.mem_cons_of_mem _ List.mem_cons_self, hleft⟩

theorem Disciplined.flatMap {α : Type} {calls : List α} {commands : α → List (Command Latch Access)}
    (h : ∀ call ∈ calls, Disciplined before [] (commands call) []) :
    Disciplined before [] (calls.flatMap commands) [] := by
  induction calls with
  | nil => rfl
  | cons call calls ih =>
    rw [List.flatMap_cons]
    exact (h call List.mem_cons_self).append (ih fun other hother => h other (List.mem_cons_of_mem _ hother))

theorem Disciplined.mono {before' : Latch → Latch → Prop} (h : Disciplined before held program left)
    (hbefore : ∀ latch next, before latch next → before' latch next) :
    Disciplined before' held program left := by
  induction program generalizing held with
  | nil => exact h
  | cons command program ih =>
    refine ⟨?_, ih h.2⟩
    cases command with
    | acquire latch => exact ⟨h.1.1, fun other hother => hbefore _ _ (h.1.2 other hother)⟩
    | release latch => exact h.1
    | access latch access => exact h.1

/-- The rest of a program goes on from the latches that are held by then. -/
theorem Disciplined.drop (h : Disciplined before held program left) (n : ℕ) :
    Disciplined before ((program.take n).foldl Command.holding held) (program.drop n) left := by
  induction program generalizing held n with
  | nil =>
    rw [List.take_nil, List.drop_nil]
    exact h
  | cons command program ih =>
    cases n with
    | zero => exact h
    | succ n => exact ih h.2 n

theorem Disciplined.left_eq (h : Disciplined before held program left) :
    program.foldl Command.holding held = left := by
  induction program generalizing held with
  | nil => exact h
  | cons command program ih => exact ih h.2

theorem Command.Allowed.nodup (h : command.Allowed before held) (hnodup : held.Nodup) :
    (command.holding held).Nodup := by
  cases command with
  | acquire latch => exact List.nodup_cons.mpr ⟨h.1, hnodup⟩
  | release latch => exact hnodup.erase latch
  | access latch access => exact hnodup

theorem Disciplined.nodup (h : Disciplined before held program left) (hnodup : held.Nodup) (n : ℕ) :
    ((program.take n).foldl Command.holding held).Nodup := by
  induction program generalizing held n with
  | nil =>
    rw [List.take_nil]
    exact hnodup
  | cons command program ih =>
    cases n with
    | zero => exact hnodup
    | succ n => exact ih h.2 (h.1.nodup hnodup) n

theorem heldAfter_concat (program : List (Command Latch Access)) (command : Command Latch Access) :
    heldAfter (program ++ [command]) = command.holding (heldAfter program) := by
  rw [heldAfter, List.foldl_append]
  rfl

end Discipline

section Run

variable [DecidableEq Thread] [DecidableEq Latch] {perform : Access → Data → Data}
  {programs : Thread → List (Command Latch Access)} {data : Latch → Data} {schedule : List Thread}
  {s s' : System Thread Latch Access Data} {t : Thread}

section Holder

variable {command : Command Latch Access} {rest : List (Command Latch Access)}

/-- A step changes the latches of the thread that takes it. -/
theorem System.after_holder_self {held : List Latch} (hheld : ∀ latch, s.holder latch = some t ↔ latch ∈ held)
    (hnodup : held.Nodup) (hready : command.Ready s.holder t) (latch : Latch) :
    (s.after perform t rest command).holder latch = some t ↔ latch ∈ command.holding held := by
  cases command with
  | acquire wanted =>
    change Function.update s.holder wanted (some t) latch = some t ↔ _
    rw [Command.holding, List.mem_cons, ← hheld]
    by_cases hlatch : latch = wanted
    · subst hlatch
      simp only [Function.update_self, true_or]
    · rw [Function.update_of_ne hlatch, or_iff_right hlatch]
  | release released =>
    change Function.update s.holder released none latch = some t ↔ _
    rw [Command.holding, hnodup.mem_erase_iff, ← hheld]
    by_cases hlatch : latch = released
    · subst hlatch
      simp only [Function.update_self, reduceCtorEq, ne_eq, not_true_eq_false, false_and]
    · rw [Function.update_of_ne hlatch, and_iff_right hlatch]
  | access latch' access => exact hheld latch

/-- A step leaves the latches of the other threads with them. -/
theorem System.after_holder_of_ne {u : Thread} (hready : command.Ready s.holder t) (hne : u ≠ t)
    (latch : Latch) :
    (s.after perform t rest command).holder latch = some u ↔ s.holder latch = some u := by
  cases command with
  | acquire wanted =>
    change Function.update s.holder wanted (some t) latch = some u ↔ _
    by_cases hlatch : latch = wanted
    · subst hlatch
      rw [Function.update_self, show s.holder latch = none from hready]
      simp only [Option.some_inj, Ne.symm hne, reduceCtorEq]
    · rw [Function.update_of_ne hlatch]
  | release released =>
    change Function.update s.holder released none latch = some u ↔ _
    by_cases hlatch : latch = released
    · subst hlatch
      rw [Function.update_self, show s.holder latch = some t from hready]
      simp only [Option.some_inj, Ne.symm hne, reduceCtorEq]
    · rw [Function.update_of_ne hlatch]
  | access latch' access => exact Iff.rfl

end Holder

/-- A thread has run as many of its commands as it had turns. -/
theorem run_todo (hrun : run (step perform) (start programs data) schedule = some s) (t : Thread) :
    s.todo t = (programs t).drop (schedule.count t) ∧ schedule.count t ≤ (programs t).length := by
  apply run.along (fun schedule s => s.todo t = (programs t).drop (schedule.count t) ∧
    schedule.count t ≤ (programs t).length) ?_ ?_ hrun
  · exact ⟨rfl, Nat.zero_le _⟩
  · rintro done u s s' _ ⟨htodo, hcount⟩ hstep
    obtain ⟨command, rest, hnext, _, rfl⟩ := step_eq_some hstep
    rw [System.after_todo, List.count_append]
    by_cases hu : t = u
    · subst hu
      have hlt : done.count t < (programs t).length := by
        by_contra hge
        rw [hnext, List.drop_eq_nil_of_le (by omega)] at htodo
        cases htodo
      rw [hnext, List.drop_eq_getElem_cons hlt] at htodo
      rw [Function.update_self, List.count_singleton_self, (List.cons.inj htodo).2]
      exact ⟨rfl, hlt⟩
    · rw [Function.update_of_ne hu, List.count_singleton, if_neg (by simpa using Ne.symm hu), Nat.add_zero]
      exact ⟨htodo, hcount⟩

/-- A step is the next command of the thread that takes it. -/
theorem run_take_concat (hrun : run (step perform) (start programs data) schedule = some s)
    {command : Command Latch Access} {rest : List (Command Latch Access)} {u : Thread}
    (htodo : s.todo u = command :: rest) (t : Thread) :
    (programs t).take ((schedule ++ [u]).count t) =
      (programs t).take (schedule.count t) ++ if t = u then [command] else [] := by
  rw [List.count_append]
  by_cases hu : t = u
  · subst hu
    have hdrop := (run_todo hrun t).1
    rw [htodo] at hdrop
    rw [if_pos rfl, List.count_singleton_self, List.take_add, ← hdrop, List.take_one, List.head?_cons,
      Option.toList_some]
  · rw [if_neg hu, List.count_singleton, if_neg (by simpa using Ne.symm hu), Nat.add_zero, List.append_nil]

/-- What each thread holds is what its commands so far have left it. -/
theorem run_holder {before : Latch → Latch → Prop}
    (hdisciplined : ∀ t, Disciplined before [] (programs t) [])
    (hrun : run (step perform) (start programs data) schedule = some s) (latch : Latch) (t : Thread) :
    s.holder latch = some t ↔ latch ∈ heldAfter ((programs t).take (schedule.count t)) := by
  apply run.along (fun schedule s => ∀ latch t,
    s.holder latch = some t ↔ latch ∈ heldAfter ((programs t).take (schedule.count t))) ?_ ?_ hrun
  · intro latch t
    rw [List.count_nil, List.take_zero]
    simp only [start, heldAfter, List.foldl_nil, List.not_mem_nil, reduceCtorEq]
  · intro done u s s' hrun hheld hstep latch t
    obtain ⟨command, rest, hnext, hready, rfl⟩ := step_eq_some hstep
    rw [run_take_concat hrun hnext]
    by_cases hu : t = u
    · subst hu
      have hnodup := (hdisciplined t).nodup List.nodup_nil (done.count t)
      rw [if_pos rfl, heldAfter_concat]
      exact System.after_holder_self (fun latch => hheld latch t) hnodup hready latch
    · rw [if_neg hu, List.append_nil, System.after_holder_of_ne hready hu, hheld]

section Order

variable {before : Latch → Latch → Prop} {command : Command Latch Access}
  {rest : List (Command Latch Access)}

/-- The next command of a thread is allowed with what the thread holds. -/
theorem run_allowed (hdisciplined : ∀ t, Disciplined before [] (programs t) [])
    (hrun : run (step perform) (start programs data) schedule = some s) (htodo : s.todo t = command :: rest) :
    command.Allowed before (heldAfter ((programs t).take (schedule.count t))) := by
  have hrest := (hdisciplined t).drop (schedule.count t)
  rw [← (run_todo hrun t).1, htodo] at hrest
  exact hrest.1

/-- A thread that is done holds nothing. -/
theorem run_done (hdisciplined : ∀ t, Disciplined before [] (programs t) [])
    (hrun : run (step perform) (start programs data) schedule = some s) (htodo : s.todo t = [])
    (latch : Latch) : s.holder latch ≠ some t := by
  have hrest := (hdisciplined t).drop (schedule.count t)
  rw [← (run_todo hrun t).1, htodo] at hrest
  rw [Ne, run_holder hdisciplined hrun, heldAfter, show _ = [] from hrest]
  exact List.not_mem_nil

/-- A thread that is not done waits for a latch or can go on. -/
theorem run_ready_or_acquires (hdisciplined : ∀ t, Disciplined before [] (programs t) [])
    (hrun : run (step perform) (start programs data) schedule = some s) (htodo : s.todo t = command :: rest) :
    command.Ready s.holder t ∨ ∃ latch, command = .acquire latch := by
  have hallowed := run_allowed hdisciplined hrun htodo
  cases command with
  | acquire latch => exact .inr ⟨latch, rfl⟩
  | release latch => exact .inl ((run_holder hdisciplined hrun latch t).mpr hallowed)
  | access latch access => exact .inl ((run_holder hdisciplined hrun latch t).mpr hallowed)

/-- Whoever waits for a latch, someone can go on: its holder, or else the one that the
holder waits for, up the order in which latches are acquired. -/
theorem exists_step_of_waiting (hdisciplined : ∀ t, Disciplined before [] (programs t) [])
    (hrun : run (step perform) (start programs data) schedule = some s) {latch : Latch}
    (hacc : Acc (fun later earlier => before earlier later) latch)
    (htodo : s.todo t = .acquire latch :: rest) : ∃ u s', step perform s u = some s' := by
  induction hacc generalizing t rest with
  | intro latch _ ih =>
    cases hholder : s.holder latch with
    | none => exact ⟨t, _, step_of_ready htodo hholder⟩
    | some u =>
      cases hnext : s.todo u with
      | nil => exact absurd hholder (run_done hdisciplined hrun hnext latch)
      | cons command others =>
        rcases run_ready_or_acquires hdisciplined hrun hnext with hready | ⟨wanted, rfl⟩
        · exact ⟨u, _, step_of_ready hnext hready⟩
        · have hheld := (run_holder hdisciplined hrun latch u).mp hholder
          exact ih wanted ((run_allowed hdisciplined hrun hnext).2 latch hheld) hnext

/-- Where latches are acquired in an order without infinite ascent, some thread has a step
as long as some thread is not done. -/
theorem exists_step (hdisciplined : ∀ t, Disciplined before [] (programs t) [])
    (hacc : ∀ t latch, .acquire latch ∈ programs t → Acc (fun later earlier => before earlier later) latch)
    (hrun : run (step perform) (start programs data) schedule = some s) (hunfinished : s.todo t ≠ []) :
    ∃ u s', step perform s u = some s' := by
  obtain ⟨command, rest, htodo⟩ := List.exists_cons_of_ne_nil hunfinished
  rcases run_ready_or_acquires hdisciplined hrun htodo with hready | ⟨latch, rfl⟩
  · exact ⟨t, _, step_of_ready htodo hready⟩
  · have hmem : .acquire latch ∈ programs t := by
      apply List.mem_of_mem_drop (i := schedule.count t)
      rw [← (run_todo hrun t).1, htodo]
      exact List.mem_cons_self
    exact exists_step_of_waiting hdisciplined hrun (hacc t latch hmem) htodo

/-- A run that cannot go on has run all programs and left all latches free. -/
theorem completed (hdisciplined : ∀ t, Disciplined before [] (programs t) [])
    (hacc : ∀ t latch, .acquire latch ∈ programs t → Acc (fun later earlier => before earlier later) latch)
    (hrun : run (step perform) (start programs data) schedule = some s)
    (hstuck : ∀ t, step perform s t = none) :
    (∀ t, s.todo t = []) ∧ ∀ latch, s.holder latch = none := by
  have hdone : ∀ t, s.todo t = [] := by
    intro t
    by_contra hunfinished
    obtain ⟨u, s', hstep⟩ := exists_step hdisciplined hacc hrun hunfinished
    rw [hstuck u] at hstep
    cases hstep
  refine ⟨hdone, fun latch => ?_⟩
  cases hholder : s.holder latch with
  | none => rfl
  | some u => exact absurd hholder (run_done hdisciplined hrun (hdone u) latch)

end Order

end Run

end Latching
