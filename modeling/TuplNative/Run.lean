import Mathlib.Data.List.Induction

/-- The state after a sequence of inputs; `none` once a step has no successor. -/
def run {σ ι : Type} (step : σ → ι → Option σ) (start : σ) (inputs : List ι) : Option σ :=
  inputs.foldlM step start

namespace run

variable {σ ι : Type} {step : σ → ι → Option σ} {start : σ}

theorem run_concat (inputs : List ι) (input : ι) :
    run step start (inputs ++ [input]) = (run step start inputs).bind fun s => step s input := by
  simp only [run, List.foldlM_append, List.foldlM_cons, List.foldlM_nil, bind_pure]
  rfl

theorem run_cons (input : ι) (inputs : List ι) :
    run step start (input :: inputs) = (step start input).bind fun s => run step s inputs := rfl

/-- A run that goes on after some inputs. -/
theorem run_append (done rest : List ι) :
    run step start (done ++ rest) = (run step start done).bind fun s => run step s rest := by
  simp only [run, List.foldlM_append]
  rfl

/-- A run that took one more step. -/
theorem run_concat_eq_some {inputs : List ι} {input : ι} {s' : σ} :
    run step start (inputs ++ [input]) = some s' ↔
      ∃ s, run step start inputs = some s ∧ step s input = some s' := by
  rw [run_concat, Option.bind_eq_some_iff]

/-- A run goes through on every prefix of its inputs. -/
theorem of_isPrefix {done inputs : List ι} (hdone : done <+: inputs) {s' : σ}
    (hrun : run step start inputs = some s') : ∃ s, run step start done = some s := by
  obtain ⟨rest, rfl⟩ := hdone
  rw [run, List.foldlM_append] at hrun
  obtain ⟨s, hs, _⟩ := Option.bind_eq_some_iff.mp hrun
  exact ⟨s, hs⟩

/-- The property holds after every prefix of the inputs that runs through. It may
speak of the inputs so far. -/
def Always (step : σ → ι → Option σ) (start : σ) (P : List ι → σ → Prop) (inputs : List ι) : Prop :=
  ∀ done, done <+: inputs → ∀ s, run step start done = some s → P done s

/-- Every step the run takes meets a condition on the state before it and its input. -/
def EachStep (step : σ → ι → Option σ) (start : σ) (cond : σ → ι → Prop) (inputs : List ι) : Prop :=
  ∀ done input, done ++ [input] <+: inputs →
    ∀ s s', run step start done = some s → step s input = some s' → cond s input

theorem EachStep.of_isPrefix {cond : σ → ι → Prop} {done inputs : List ι} (hdone : done <+: inputs)
    (h : EachStep step start cond inputs) : EachStep step start cond done :=
  fun earlier input hearlier => h earlier input (hearlier.trans hdone)

theorem Always.of_isPrefix {P : List ι → σ → Prop} {done inputs : List ι} (hdone : done <+: inputs)
    (h : Always step start P inputs) : Always step start P done :=
  fun earlier hearlier => h earlier (hearlier.trans hdone)

variable {P : List ι → σ → Prop} {cond : σ → ι → Prop}

/-- The induction rule for runs: an invariant that holds at the start and that
every step meeting the condition preserves holds wherever such steps lead. -/
theorem invariant (inv : List ι → σ → Prop) (hstart : inv [] start)
    (hstep : ∀ done input s s', inv done s → cond s input → step s input = some s' →
      inv (done ++ [input]) s') :
    ∀ inputs s, EachStep step start cond inputs → run step start inputs = some s → inv inputs s := by
  intro inputs
  induction inputs using List.reverseRecOn with
  | nil =>
    intro s _ hrun
    cases hrun
    exact hstart
  | append_singleton inputs input ih =>
    intro s' hcond hrun
    obtain ⟨s, hbefore, hlast⟩ := run_concat_eq_some.mp hrun
    exact hstep inputs input s s' (ih s (hcond.of_isPrefix (List.prefix_append _ _)) hbefore)
      (hcond inputs input List.prefix_rfl s s' hbefore hlast) hlast

/-- The induction rule for an invariant that speaks of the inputs so far, with the run
up to them at hand. -/
theorem along (inv : List ι → σ → Prop) (hstart : inv [] start)
    (hstep : ∀ done input s s', run step start done = some s → inv done s → step s input = some s' →
      inv (done ++ [input]) s') {inputs : List ι} {s : σ} (hrun : run step start inputs = some s) :
    inv inputs s := by
  induction inputs using List.reverseRecOn generalizing s with
  | nil =>
    cases hrun
    exact hstart
  | append_singleton inputs input ih =>
    obtain ⟨before, hbefore, hlast⟩ := run_concat_eq_some.mp hrun
    exact hstep inputs input before s hbefore (ih hbefore) hlast

/-- What every step preserves holds in every state that a run reaches. -/
theorem preserved (inv : σ → Prop) (hstart : inv start)
    (hstep : ∀ s input s', inv s → step s input = some s' → inv s') {inputs : List ι} {s : σ}
    (hrun : run step start inputs = some s) : inv s := by
  apply invariant (fun _ s => inv s) hstart (fun _ input s s' hinv (_ : True) hs => hstep s input s' hinv hs)
    inputs s
  · exact fun _ _ _ _ _ _ _ => trivial
  · exact hrun

/-- A run of steps that others match one by one is matched by a run of the others. -/
theorem simulates {τ : Type} {step' : τ → ι → Option τ} {start' : τ} (related : σ → τ → Prop)
    (hstart : related start start')
    (hstep : ∀ s t input t', related s t → step' t input = some t' →
      ∃ s', step s input = some s' ∧ related s' t') :
    ∀ inputs t, run step' start' inputs = some t →
      ∃ s, run step start inputs = some s ∧ related s t := by
  intro inputs
  induction inputs using List.reverseRecOn with
  | nil =>
    intro t hrun
    cases hrun
    exact ⟨start, rfl, hstart⟩
  | append_singleton inputs input ih =>
    intro t' hrun
    obtain ⟨t, hbefore, hlast⟩ := run_concat_eq_some.mp hrun
    obtain ⟨s, hrun, hrelated⟩ := ih t hbefore
    obtain ⟨s', hs, hrelated'⟩ := hstep s t input t' hrelated hlast
    exact ⟨s', run_concat_eq_some.mpr ⟨s, hrun, hs⟩, hrelated'⟩

/-- Steps that a function carries over carry whole runs over. -/
theorem run_map {τ : Type} {step' : τ → ι → Option τ} (f : σ → τ)
    (hstep : ∀ s input, step' (f s) input = (step s input).map f) (inputs : List ι) :
    run step' (f start) inputs = (run step start inputs).map f := by
  induction inputs generalizing start with
  | nil => rfl
  | cons input inputs ih =>
    rw [run_cons, run_cons, hstep]
    cases step start input with
    | none => rfl
    | some s => exact ih

/-- The exact condition for a property of runs. Suppose the invariant gives the
property, steps that meet the condition keep the invariant, and a step from it
that misses the condition breaks the property. Then the property holds after
every prefix exactly when every step meets the condition. `legal` restricts the
inputs and has to hold of prefixes too. -/
theorem always_iff_eachStep (legal : List ι → Prop) (inv : List ι → σ → Prop) (hstart : inv [] start)
    (hlegal : ∀ done inputs, done <+: inputs → legal inputs → legal done)
    (hP : ∀ done s, inv done s → P done s)
    (hkeep : ∀ done input s s', legal (done ++ [input]) → inv done s → cond s input →
      step s input = some s' → inv (done ++ [input]) s')
    (hbreak : ∀ done input s s', legal (done ++ [input]) → inv done s → ¬ cond s input →
      step s input = some s' → ¬ P (done ++ [input]) s')
    (inputs : List ι) (hinputs : legal inputs) :
    Always step start P inputs ↔ EachStep step start cond inputs := by
  have hinv : ∀ done s, legal done → EachStep step start cond done →
      run step start done = some s → inv done s := by
    intro done s hdone hcond hrun
    have hrule : ∀ inputs s, EachStep step start cond inputs → run step start inputs = some s →
        legal inputs → inv inputs s := by
      apply invariant (fun done s => legal done → inv done s) (fun _ => hstart)
      intro earlier input s s' hearlier hc hs hl
      exact hkeep earlier input s s' hl (hearlier (hlegal _ _ (List.prefix_append _ _) hl)) hc hs
    exact hrule done s hcond hrun hdone
  constructor
  · intro halways
    induction inputs using List.reverseRecOn with
    | nil =>
      intro done input hleading
      exact absurd (List.prefix_nil.mp hleading) (by simp)
    | append_singleton inputs last ih =>
      have hshorter := List.prefix_append inputs [last]
      have hcond := ih (hlegal _ _ hshorter hinputs) (halways.of_isPrefix hshorter)
      intro done input hleading s s' hrun hstep
      cases List.prefix_concat_iff.mp hleading with
      | inl heq =>
        obtain ⟨rfl, hlast⟩ := List.append_inj' heq rfl
        obtain rfl := List.singleton_inj.mp hlast
        by_contra hmissed
        exact hbreak _ _ s s' hinputs (hinv _ s (hlegal _ _ hshorter hinputs) hcond hrun) hmissed hstep
          (halways _ List.prefix_rfl s' (run_concat_eq_some.mpr ⟨s, hrun, hstep⟩))
      | inr hleading => exact hcond done input hleading s s' hrun hstep
  · intro hcond done hleading s hrun
    exact hP done s (hinv done s (hlegal _ _ hleading hinputs) (hcond.of_isPrefix hleading) hrun)

end run
