import TuplNative.Latching

namespace Latching

variable {Thread Latch Access Data : Type} [DecidableEq Thread] [DecidableEq Latch]
  {perform : Access → Data → Data} {programs : Thread → List (Command Latch Access)} {data : Latch → Data}
  {schedule : List Thread} {s s' : System Thread Latch Access Data} {t : Thread}

section Deadlock

/-- Each of the threads waits for a latch that one of them holds. -/
def Deadlocked (threads : Thread → Prop) (s : System Thread Latch Access Data) : Prop :=
  ∀ t, threads t → ∃ latch rest, s.todo t = .acquire latch :: rest ∧
    ∃ u, threads u ∧ s.holder latch = some u

variable {threads : Thread → Prop}

/-- None of the threads has a step, and no one else frees a latch that they wait for. -/
theorem Deadlocked.of_step (h : Deadlocked threads s) (hstep : step perform s t = some s') :
    ¬ threads t ∧ Deadlocked threads s' ∧ ∀ u, threads u → s'.todo u = s.todo u := by
  obtain ⟨command, rest, hnext, hready, rfl⟩ := step_eq_some hstep
  have hothers : ¬ threads t := by
    intro ht
    obtain ⟨latch, rest', htodo, u, _, hholder⟩ := h t ht
    obtain ⟨rfl, _⟩ := List.cons.inj (hnext.symm.trans htodo)
    exact Option.some_ne_none u (hholder.symm.trans hready)
  have htodo : ∀ u, threads u → (s.after perform t rest command).todo u = s.todo u := by
    intro u hu
    have hne : u ≠ t := by
      rintro rfl
      exact hothers hu
    rw [System.after_todo, Function.update_of_ne hne]
  refine ⟨hothers, fun v hv => ?_, htodo⟩
  obtain ⟨latch, rest', hwaits, u, hu, hholder⟩ := h v hv
  have hne : u ≠ t := by
    rintro rfl
    exact hothers hu
  exact ⟨latch, rest', (htodo v hv).trans hwaits, u, hu,
    (System.after_holder_of_ne hready hne latch).mpr hholder⟩

/-- A deadlock is for ever. -/
theorem Deadlocked.of_run (h : Deadlocked threads s) (hrun : run (step perform) s schedule = some s') :
    Deadlocked threads s' ∧ ∀ t, threads t → t ∉ schedule ∧ s'.todo t = s.todo t := by
  apply run.along (fun schedule s' => Deadlocked threads s' ∧
    ∀ t, threads t → t ∉ schedule ∧ s'.todo t = s.todo t) ?_ ?_ hrun
  · exact ⟨h, fun t _ => ⟨List.not_mem_nil, rfl⟩⟩
  · rintro done u s₁ s₂ _ ⟨hdeadlocked, hkept⟩ hstep
    obtain ⟨hothers, hstill, htodo⟩ := hdeadlocked.of_step hstep
    refine ⟨hstill, fun t ht => ⟨?_, (htodo t ht).trans (hkept t ht).2⟩⟩
    rw [List.mem_append, List.mem_singleton, not_or]
    refine ⟨(hkept t ht).1, ?_⟩
    rintro rfl
    exact hothers ht

end Deadlock

section Alone

/-- The data after a command. -/
def Command.performed (perform : Access → Data → Data) (data : Latch → Data) :
    Command Latch Access → Latch → Data
  | .acquire _ => data
  | .release _ => data
  | .access latch how => Function.update data latch (perform how (data latch))

theorem System.after_data (command : Command Latch Access) (rest : List (Command Latch Access)) :
    (s.after perform t rest command).data = command.performed perform s.data := by
  cases command <;> rfl

/-- What a thread can run on its own: commands that get only latches that no other thread
holds. The others keep what they hold. -/
theorem run_alone {before : Latch → Latch → Prop} {held left : List Latch}
    {program rest : List (Command Latch Access)} (hheld : ∀ latch, s.holder latch = some t ↔ latch ∈ held)
    (hnodup : held.Nodup) (hdisciplined : Disciplined before held program left)
    (htodo : s.todo t = program ++ rest)
    (hfree : ∀ latch u, .acquire latch ∈ program → u ≠ t → s.holder latch ≠ some u) :
    ∃ s', run (step perform) s (List.replicate program.length t) = some s' ∧
      s'.todo = Function.update s.todo t rest ∧ (∀ latch, s'.holder latch = some t ↔ latch ∈ left) ∧
      (∀ latch u, u ≠ t → (s'.holder latch = some u ↔ s.holder latch = some u)) ∧
      s'.data = program.foldl (Command.performed perform) s.data := by
  induction program generalizing s held with
  | nil =>
    obtain rfl := hdisciplined
    refine ⟨s, rfl, ?_, hheld, fun _ _ _ => Iff.rfl, rfl⟩
    rw [List.nil_append] at htodo
    rw [← htodo, Function.update_eq_self]
  | cons command program ih =>
    have hready : command.Ready s.holder t := by
      cases command with
      | acquire latch =>
        cases hholder : s.holder latch with
        | none => exact hholder
        | some u =>
          by_cases hu : u = t
          · subst hu
            exact absurd ((hheld latch).mp hholder) hdisciplined.1.1
          · exact absurd hholder (hfree latch u List.mem_cons_self hu)
      | release latch => exact (hheld latch).mpr hdisciplined.1
      | access latch access => exact (hheld latch).mpr hdisciplined.1
    have hstep : step perform s t = some _ := step_of_ready htodo hready
    have hself : ∀ latch, (s.after perform t (program ++ rest) command).holder latch = some t ↔
        latch ∈ command.holding held := System.after_holder_self hheld hnodup hready
    obtain ⟨s', hrun, htodo', hmine, hothers, hdata⟩ := ih hself (hdisciplined.1.nodup hnodup) hdisciplined.2
      (by rw [System.after_todo, Function.update_self])
      (fun latch u hlatch hu => by
        rw [Ne, System.after_holder_of_ne hready hu]
        exact hfree latch u (List.mem_cons_of_mem _ hlatch) hu)
    refine ⟨s', ?_, ?_, hmine, fun latch u hu => ?_, ?_⟩
    · rw [List.length_cons, List.replicate_succ, run.run_cons, hstep]
      exact hrun
    · rw [htodo', System.after_todo, Function.update_idem]
    · rw [hothers latch u hu, System.after_holder_of_ne hready hu]
    · rw [hdata, System.after_data, List.foldl_cons]

/-- The only thread gets through. -/
theorem run_only (perform : Access → Data → Data) {before : Latch → Latch → Prop}
    {program : List (Command Latch Access)} (hdisciplined : Disciplined before [] program [])
    (data : Latch → Data) :
    ∃ s, run (step perform) (start (fun _ : Unit => program) data) (List.replicate program.length ()) =
        some s ∧
      s.todo () = [] ∧ s.data = program.foldl (Command.performed perform) data ∧
      ∀ latch, s.holder latch = none := by
  have hnothing : ∀ latch, (start (fun _ : Unit => program) data).holder latch = some () ↔ latch ∈ [] := by
    intro latch
    simp only [start, reduceCtorEq, List.not_mem_nil]
  have htodo : (start (fun _ : Unit => program) data).todo () = program ++ [] := (List.append_nil _).symm
  obtain ⟨s, hrun, hdone, hmine, _, hdata⟩ :=
    run_alone hnothing List.nodup_nil hdisciplined htodo fun latch u _ hu => absurd rfl hu
  refine ⟨s, hrun, ?_, hdata, fun latch => ?_⟩
  · rw [hdone, Function.update_self]
  · cases hholder : s.holder latch with
    | none => rfl
    | some u => exact absurd ((hmine latch).mp hholder) List.not_mem_nil

end Alone

section Cycle

/-- The participants from one on have run their openings and wait for their targets, each
with its own latch; those before it have not begun. -/
structure WaitingFrom (programs : Thread → List (Command Latch Access)) (participant : ℕ → Thread)
    (held target : ℕ → Latch) (first depth : ℕ) (s : System Thread Latch Access Data) : Prop where
  holder : ∀ latch u, s.holder latch = some u ↔ ∃ i, first ≤ i ∧ i ≤ depth ∧ u = participant i ∧ latch = held i
  waits : ∀ i, first ≤ i → i ≤ depth → ∃ rest, s.todo (participant i) = .acquire (target i) :: rest
  unstarted : ∀ i, i < first → s.todo (participant i) = programs (participant i)

variable {participant : ℕ → Thread} {depth first : ℕ} {held target : ℕ → Latch}

/-- One more participant runs its opening, which needs no latch of the others. -/
theorem WaitingFrom.previous {before : Latch → Latch → Prop} {opening rest : List (Command Latch Access)}
    (h : WaitingFrom programs participant held target (first + 1) depth s)
    (hdistinct : ∀ i j, i ≤ depth → j ≤ depth → participant i = participant j → i = j) (hfirst : first ≤ depth)
    (hprogram : programs (participant first) = opening ++ .acquire (target first) :: rest)
    (hdisciplined : Disciplined before [] opening [held first])
    (hfree : ∀ latch, .acquire latch ∈ opening → ∀ i, first < i → i ≤ depth → latch ≠ held i) :
    ∃ schedule s', run (step perform) s schedule = some s' ∧
      WaitingFrom programs participant held target first depth s' := by
  have hnothing : ∀ latch, s.holder latch = some (participant first) ↔ latch ∈ [] := by
    intro latch
    rw [h.holder]
    simp only [List.not_mem_nil, iff_false, not_exists, not_and]
    intro i hi hdepth hsame
    have hlt := hdistinct first i hfirst hdepth hsame
    omega
  have htodo := (h.unstarted first (Nat.lt_succ_self first)).trans hprogram
  have hothers : ∀ latch u, .acquire latch ∈ opening → u ≠ participant first → s.holder latch ≠ some u := by
    intro latch u hlatch _ hholder
    obtain ⟨i, hi, hdepth, _, hheld⟩ := (h.holder latch u).mp hholder
    exact hfree latch hlatch i hi hdepth hheld
  obtain ⟨s', hrun, htodo', hmine, hkept, _⟩ := run_alone hnothing List.nodup_nil hdisciplined htodo hothers
  refine ⟨_, s', hrun, ?_, ?_, ?_⟩
  · intro latch u
    by_cases hu : u = participant first
    · subst hu
      rw [hmine, List.mem_singleton]
      constructor
      · rintro rfl
        exact ⟨first, Nat.le_refl first, hfirst, rfl, rfl⟩
      · rintro ⟨i, _, hdepth, hsame, rfl⟩
        rw [hdistinct first i hfirst hdepth hsame]
    · rw [hkept latch u hu, h.holder]
      constructor
      · rintro ⟨i, hi, hdepth, hsame, hheld⟩
        exact ⟨i, by omega, hdepth, hsame, hheld⟩
      · rintro ⟨i, hi, hdepth, rfl, hheld⟩
        have hne : i ≠ first := by
          rintro rfl
          exact hu rfl
        exact ⟨i, by omega, hdepth, rfl, hheld⟩
  · intro i hi hdepth
    rw [htodo']
    by_cases hne : i = first
    · subst hne
      exact ⟨rest, Function.update_self _ _ _⟩
    · rw [Function.update_of_ne fun hsame => hne (hdistinct i first hdepth hfirst hsame)]
      exact h.waits i (by omega) hdepth
  · intro i hi
    have hne : participant i ≠ participant first := fun hsame => by
      have hsame := hdistinct i first (by omega) hfirst hsame
      omega
    rw [htodo', Function.update_of_ne hne]
    exact h.unstarted i (by omega)

/-- Threads that open with a latch each and then want one another's can all be made to
wait: one after the other runs its opening, the last one first. -/
theorem exists_waiting (before : Latch → Latch → Prop)
    (hdistinct : ∀ i j, i ≤ depth → j ≤ depth → participant i = participant j → i = j)
    (hopening : ∀ i ≤ depth, ∃ opening rest, programs (participant i) = opening ++ .acquire (target i) :: rest ∧
      Disciplined before [] opening [held i] ∧
      ∀ latch, .acquire latch ∈ opening → ∀ j, i < j → j ≤ depth → latch ≠ held j) :
    ∃ schedule s, run (step perform) (start programs data) schedule = some s ∧
      WaitingFrom programs participant held target 0 depth s := by
  have hall : ∀ count first, first + count = depth + 1 →
      ∃ schedule s, run (step perform) (start programs data) schedule = some s ∧
        WaitingFrom programs participant held target first depth s := by
    intro count
    induction count with
    | zero =>
      rintro first rfl
      refine ⟨[], _, rfl, ?_, fun i hi hdepth => ?_, fun _ _ => rfl⟩
      · intro latch u
        simp only [start, reduceCtorEq, false_iff, not_exists]
        rintro i ⟨hi, hdepth, _⟩
        omega
      · omega
    | succ count ih =>
      intro first hfirst
      obtain ⟨schedule, s, hrun, hwaiting⟩ := ih (first + 1) (by omega)
      obtain ⟨opening, rest, hprogram, hdisciplined, hfree⟩ := hopening first (by omega)
      obtain ⟨more, s', hmore, hwaiting'⟩ :=
        hwaiting.previous hdistinct (by omega) hprogram hdisciplined hfree
      refine ⟨schedule ++ more, s', ?_, hwaiting'⟩
      rw [run.run_append, hrun]
      exact hmore
  exact hall (depth + 1) 0 (Nat.zero_add _)

omit [DecidableEq Thread] [DecidableEq Latch] in
/-- Where every latch that is wanted is held by a participant, all of them are stuck. -/
theorem WaitingFrom.deadlocked (h : WaitingFrom programs participant held target 0 depth s)
    (hcycle : ∀ i ≤ depth, ∃ j ≤ depth, target i = held j) :
    Deadlocked (fun t => ∃ i ≤ depth, t = participant i) s := by
  rintro _ ⟨i, hi, rfl⟩
  obtain ⟨rest, hwaits⟩ := h.waits i (Nat.zero_le i) hi
  obtain ⟨j, hj, htarget⟩ := hcycle i hi
  exact ⟨target i, rest, hwaits, participant j, ⟨j, hj, rfl⟩,
    (h.holder _ _).mpr ⟨j, Nat.zero_le j, hj, rfl, htarget⟩⟩

end Cycle

end Latching
