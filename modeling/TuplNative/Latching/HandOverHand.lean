import Mathlib.Data.List.Basic
import Mathlib.Data.List.Nodup
import TuplNative.Latching

namespace Latching

variable {Thread Latch Access Data : Type}

/-- The latch that a command acquires. -/
def Command.acquired : Command Latch Access → Option Latch
  | .acquire latch => some latch
  | .release _ => none
  | .access _ _ => none

/-- The latches that a program acquires, in that order. -/
def way (program : List (Command Latch Access)) : List Latch := program.filterMap Command.acquired

theorem way_append (program rest : List (Command Latch Access)) :
    way (program ++ rest) = way program ++ way rest :=
  List.filterMap_append

/-- As long as there are latches to acquire, the last one that was acquired is held. -/
def HandOverHand [DecidableEq Latch] (program : List (Command Latch Access)) : Prop :=
  ∀ done rest passed latch, done ++ rest = program → way done = passed ++ [latch] → way rest ≠ [] →
    latch ∈ heldAfter done

section Way

variable {passed before rest after : List Latch} {latch next : Latch}

/-- A latch stands at one place of a way. -/
theorem eq_of_append_cons_eq (hnodup : (passed ++ next :: rest).Nodup)
    (hway : passed ++ next :: rest = before ++ next :: after) : passed = before := by
  have hothers : next ∉ passed ++ rest := (List.nodup_cons.mp (List.nodup_middle.mp hnodup)).1
  rw [List.mem_append, not_or] at hothers
  exact ((List.append_cons_inj_of_notMem hothers.1 hothers.2).mp hway).1

/-- With the next latch still ahead, the one before it was the last to be passed. -/
theorem passed_eq_of_not_mem (hnodup : (passed ++ rest).Nodup)
    (hway : passed ++ rest = before ++ latch :: next :: after) (hpassed : latch ∈ passed)
    (hnext : next ∉ passed) : passed = before ++ [latch] := by
  have hmem : next ∈ passed ++ rest := by
    rw [hway]
    exact List.mem_append_right _ (List.mem_cons_of_mem _ List.mem_cons_self)
  obtain ⟨between, beyond, rfl⟩ := List.append_of_mem ((List.mem_append.mp hmem).resolve_left hnext)
  rw [← List.append_assoc] at hnodup hway
  have hbefore : passed ++ between = before ++ [latch] := by
    apply eq_of_append_cons_eq hnodup
    rw [hway, List.append_assoc, List.singleton_append]
  cases between using List.reverseRecOn with
  | nil => rwa [List.append_nil] at hbefore
  | append_singleton between last =>
    rw [← List.append_assoc] at hbefore
    obtain rfl := List.singleton_inj.mp (List.append_inj' hbefore rfl).2
    have hdisjoint := (List.nodup_append.mp (List.nodup_append.mp hnodup).1).2.2
    exact absurd rfl (hdisjoint last hpassed last (List.mem_append_right _ List.mem_cons_self))

end Way

section Arrivals

variable [DecidableEq Thread] [DecidableEq Latch] {perform : Access → Data → Data}
  {programs : Thread → List (Command Latch Access)} {data : Latch → Data} {schedule : List Thread}
  {s : System Thread Latch Access Data}

/-- The latches that a thread has acquired so far. -/
def passed (programs : Thread → List (Command Latch Access)) (schedule : List Thread) (t : Thread) :
    List Latch :=
  way ((programs t).take (schedule.count t))

omit [DecidableEq Latch] in
theorem passed_append_drop (programs : Thread → List (Command Latch Access)) (schedule : List Thread)
    (t : Thread) :
    passed programs schedule t ++ way ((programs t).drop (schedule.count t)) = way (programs t) := by
  rw [passed, ← way_append, List.take_append_drop]

/-- A step appends what it acquires to the way of its thread. -/
theorem passed_concat {command : Command Latch Access} {rest : List (Command Latch Access)} {u : Thread}
    (hrun : run (step perform) (start programs data) schedule = some s) (htodo : s.todo u = command :: rest)
    (t : Thread) : passed programs (schedule ++ [u]) t =
      if t = u then passed programs schedule t ++ command.acquired.toList else passed programs schedule t := by
  rw [passed, run_take_concat hrun htodo, way_append]
  by_cases hu : t = u
  · rw [if_pos hu, if_pos hu]
    cases command <;> rfl
  · rw [if_neg hu, if_neg hu]
    exact List.append_nil _

theorem System.after_arrivals (s : System Thread Latch Access Data) (t : Thread)
    (rest : List (Command Latch Access)) (command : Command Latch Access) (latch : Latch) :
    (s.after perform t rest command).arrivals latch =
      if command.acquired = some latch then s.arrivals latch ++ [t] else s.arrivals latch := by
  cases command with
  | acquire wanted =>
    change Function.update s.arrivals wanted (s.arrivals wanted ++ [t]) latch = _
    by_cases hlatch : latch = wanted
    · subst hlatch
      rw [Function.update_self, Command.acquired, if_pos rfl]
    · rw [Function.update_of_ne hlatch, Command.acquired, if_neg (by simpa using Ne.symm hlatch)]
  | release released => rfl
  | access latch' access => rfl

/-- The arrivals are the latches that the threads have acquired. -/
theorem count_arrivals (hrun : run (step perform) (start programs data) schedule = some s) (latch : Latch)
    (t : Thread) : (s.arrivals latch).count t = (passed programs schedule t).count latch := by
  apply run.along (fun schedule s =>
    (s.arrivals latch).count t = (passed programs schedule t).count latch) ?_ ?_ hrun
  · rw [passed, List.count_nil, List.take_zero]
    rfl
  · intro done u s s' hrun hcount hstep
    obtain ⟨command, rest, hnext, _, rfl⟩ := step_eq_some hstep
    rw [passed_concat hrun hnext, System.after_arrivals]
    cases hacquired : command.acquired with
    | none => simpa using hcount
    | some wanted =>
      simp only [Option.toList_some, Option.some_inj]
      by_cases hlatch : wanted = latch <;> by_cases hu : t = u
      · rw [if_pos hlatch, if_pos hu, List.count_append, List.count_append, hcount, hlatch, hu,
          List.count_singleton_self, List.count_singleton_self]
      · rw [if_pos hlatch, if_neg hu, List.count_append, hcount, List.count_singleton,
          if_neg (by simpa using Ne.symm hu), Nat.add_zero]
      · rw [if_neg hlatch, if_pos hu, List.count_append, hcount, List.count_singleton,
          if_neg (by simpa using hlatch), Nat.add_zero]
      · rw [if_neg hlatch, if_neg hu, hcount]

section Overtaking

/-- A thread arrives at a latch once at most, namely when it passes it. -/
theorem mem_arrivals_iff (hrun : run (step perform) (start programs data) schedule = some s) {latch : Latch}
    {t : Thread} : t ∈ s.arrivals latch ↔ latch ∈ passed programs schedule t := by
  rw [← List.count_pos_iff, count_arrivals hrun, List.count_pos_iff]

variable (hrun : run (step perform) (start programs data) schedule = some s)
  (hnodup : ∀ t, (way (programs t)).Nodup)
include hrun hnodup

theorem arrivals_nodup (latch : Latch) : (s.arrivals latch).Nodup := by
  refine List.nodup_iff_count_le_one.mpr fun t => ?_
  have hway := hnodup t
  rw [← passed_append_drop programs schedule t] at hway
  rw [count_arrivals hrun]
  exact List.nodup_iff_count_le_one.mp (List.nodup_append.mp hway).1 latch

variable {latch next : Latch} {t : Thread}

/-- A thread that is about to acquire the next latch has passed the one before it. -/
theorem between_of_acquiring {rest : List (Command Latch Access)}
    (hway : [latch, next] <:+: way (programs t)) (htodo : s.todo t = .acquire next :: rest) :
    latch ∈ passed programs schedule t ∧ next ∉ passed programs schedule t := by
  obtain ⟨earlier, later, hway⟩ := hway
  have hparts : passed programs schedule t ++ next :: way rest = way (programs t) := by
    rw [← passed_append_drop programs schedule t, ← (run_todo hrun t).1, htodo]
    rfl
  have hwhole := hnodup t
  rw [← hparts] at hwhole
  constructor
  · have hsplit : passed programs schedule t ++ next :: way rest = (earlier ++ [latch]) ++ next :: later := by
      rw [hparts, ← hway]
      simp
    rw [eq_of_append_cons_eq hwhole hsplit]
    exact List.mem_append_right _ List.mem_cons_self
  · intro hmem
    exact (List.nodup_append.mp hwhole).2.2 next hmem next List.mem_cons_self rfl

variable {before : Latch → Latch → Prop} (hdisciplined : ∀ t, Disciplined before [] (programs t) [])
  (hhand : ∀ t, HandOverHand (programs t))
include hdisciplined hhand

/-- Between two latches of its way a thread holds the first one. -/
theorem holder_of_between (hway : [latch, next] <:+: way (programs t))
    (hpassed : latch ∈ passed programs schedule t) (hnext : next ∉ passed programs schedule t) :
    s.holder latch = some t := by
  obtain ⟨before, after, hway⟩ := hway
  have hparts := passed_append_drop programs schedule t
  have hahead : way ((programs t).drop (schedule.count t)) ≠ [] := by
    intro hempty
    rw [hempty, List.append_nil] at hparts
    apply hnext
    rw [hparts, ← hway]
    simp
  have hsplit : passed programs schedule t ++ way ((programs t).drop (schedule.count t)) =
      before ++ latch :: next :: after := by
    rw [hparts, ← hway]
    simp
  have hwhole := hnodup t
  rw [← hparts] at hwhole
  rw [run_holder hdisciplined hrun]
  exact hhand t _ _ before latch (List.take_append_drop _ _)
    (passed_eq_of_not_mem hwhole hsplit hpassed hnext) hahead

variable (hparent : ∀ t u latch next, [latch, next] <:+: way (programs t) → next ∈ way (programs u) →
  [latch, next] <:+: way (programs u))
include hparent

/-- Threads arrive at the next latch in the order in which they got the one before it:
whoever has that one and not the next one yet still holds it. -/
theorem arrivals_isPrefix_of_next (hway : [latch, next] <:+: way (programs t)) :
    s.arrivals next <+: (s.arrivals latch).filter fun u => decide (next ∈ way (programs u)) := by
  have hne : next ≠ latch := by
    rintro rfl
    simpa using (hnodup t).sublist hway.sublist
  apply run.along (fun _ s =>
    s.arrivals next <+: (s.arrivals latch).filter fun u => decide (next ∈ way (programs u))) ?_ ?_ hrun
  · exact List.nil_prefix
  · intro done u s s' hrun ih hstep
    obtain ⟨command, rest, htodo, hready, rfl⟩ := step_eq_some hstep
    rw [System.after_arrivals, System.after_arrivals]
    by_cases hacquires : command = .acquire next
    · subst hacquires
      rw [Command.acquired, if_pos rfl, if_neg (by simpa using hne)]
      have hmine := (run_todo hrun u).1
      rw [htodo] at hmine
      have hgoes : next ∈ way (programs u) := by
        rw [← passed_append_drop programs done u, ← hmine]
        exact List.mem_append_right _ List.mem_cons_self
      have hshared := hparent t u latch next hway hgoes
      have hbetween := between_of_acquiring hrun hnodup hshared htodo
      have hholder := holder_of_between hrun hnodup hdisciplined hhand hshared hbetween.1 hbetween.2
      have harrived : u ∈ (s.arrivals latch).filter fun u => decide (next ∈ way (programs u)) :=
        List.mem_filter.mpr ⟨(mem_arrivals_iff hrun).mpr hbetween.1, decide_eq_true hgoes⟩
      have hdistinct := (arrivals_nodup hrun hnodup latch).filter fun u => decide (next ∈ way (programs u))
      obtain ⟨others, hothers⟩ := ih
      rw [← hothers] at harrived hdistinct ⊢
      cases others with
      | nil =>
        rw [List.append_nil, mem_arrivals_iff hrun] at harrived
        exact absurd harrived hbetween.2
      | cons v others =>
        -- the first thread that is yet to arrive holds the latch, as the one does that goes on
        have hmem : v ∈ (s.arrivals latch).filter fun u => decide (next ∈ way (programs u)) := by
          rw [← hothers]
          exact List.mem_append_right _ List.mem_cons_self
        obtain ⟨hlatch, hnext⟩ := List.mem_filter.mp hmem
        have habsent : next ∉ passed programs done v := by
          rw [← mem_arrivals_iff hrun]
          exact fun h => (List.nodup_append.mp hdistinct).2.2 v h v List.mem_cons_self rfl
        have hfirst := holder_of_between hrun hnodup hdisciplined hhand
          (hparent t v latch next hway (of_decide_eq_true hnext)) ((mem_arrivals_iff hrun).mp hlatch) habsent
        obtain rfl := Option.some.inj (hfirst.symm.trans hholder)
        exact (List.prefix_append_right_inj _).mpr (List.prefix_append [v] others)
    · have hother : command.acquired ≠ some next := by
        intro hacquired
        cases command with
        | acquire wanted => exact hacquires (congrArg _ (Option.some.inj hacquired))
        | release released => cases hacquired
        | access latch' access => cases hacquired
      rw [if_neg hother]
      split
      · rw [List.filter_append]
        exact ih.trans (List.prefix_append _ _)
      · exact ih

/-- Threads arrive everywhere on a way in the order in which they got its first latch. -/
theorem arrivals_isPrefix {root : Latch} (hroot : (way (programs t)).head? = some root)
    (hway : latch ∈ way (programs t)) :
    s.arrivals latch <+: (s.arrivals root).filter fun u => decide (latch ∈ way (programs u)) := by
  obtain ⟨earlier, later, hsplit⟩ := List.append_of_mem hway
  induction earlier using List.reverseRecOn generalizing latch later with
  | nil =>
    rw [hsplit] at hroot
    obtain rfl : latch = root := Option.some.inj hroot
    have hall : ∀ u ∈ s.arrivals latch, decide (latch ∈ way (programs u)) = true := by
      intro u hu
      rw [mem_arrivals_iff hrun] at hu
      rw [decide_eq_true_iff, ← passed_append_drop programs schedule u]
      exact List.mem_append_left _ hu
    exact ⟨[], by rw [List.append_nil, List.filter_eq_self.mpr hall]⟩
  | append_singleton earlier parent ih =>
    rw [List.append_assoc, List.singleton_append] at hsplit
    have hnext : [parent, latch] <:+: way (programs t) :=
      ⟨earlier, later, by rw [hsplit, List.append_assoc]; rfl⟩
    have hmem : parent ∈ way (programs t) := hnext.subset List.mem_cons_self
    have habove := (ih hmem _ hsplit).filter fun u => decide (latch ∈ way (programs u))
    refine (arrivals_isPrefix_of_next hrun hnodup hdisciplined hhand hparent hnext).trans ?_
    rw [List.filter_filter] at habove
    convert habove using 1
    refine List.filter_congr fun u _ => ?_
    by_cases hu : latch ∈ way (programs u)
    · have hthrough : parent ∈ way (programs u) :=
        (hparent t u parent latch hnext hu).subset List.mem_cons_self
      rw [decide_eq_true hu, decide_eq_true hthrough]
      rfl
    · rw [decide_eq_false hu]
      rfl

end Overtaking

end Arrivals

end Latching
