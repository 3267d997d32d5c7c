import Mathlib.Data.List.Basic

/-!
# Runs of a guarded step function

A system is a step function on states and events: `step s e` is the state after the event, and `none` when the event is not
enabled in the state. A run is a list of events; its states are the ones the steps leave, the first one included. One
definition serves replay and proof: the guards a proof uses are the guards a replay checks.

Nothing here names a program: the states and events are parameters.
-/

namespace Soroscan

section Runs

variable {σ ε : Type*}

/-- The state after a run of events from a state, if every event is enabled where it happens. -/
def run (step : σ → ε → Option σ) : σ → List ε → Option σ
  | s, [] => some s
  | s, e :: es => (step s e).bind fun s' => run step s' es

/-- The states a run passes through, in order: the one it starts from, and the one after each event. -/
def states (step : σ → ε → Option σ) : σ → List ε → List σ
  | s, [] => [s]
  | s, e :: es => s :: ((step s e).map fun s' => states step s' es).getD []

/-- Every event that happens in a run meets a condition on the state it happens in. -/
def EachStep (step : σ → ε → Option σ) (ok : σ → ε → Prop) : σ → List ε → Prop
  | _, [] => True
  | s, e :: es => ∀ s', step s e = some s' → ok s e ∧ EachStep step ok s' es

/-- A run of events takes a step: after some of them the next one leads on. -/
def Takes (step : σ → ε → Option σ) (s : σ) (es : List ε) (a : σ) (e : ε) (b : σ) : Prop :=
  ∃ before after, es = before ++ e :: after ∧ run step s before = some a ∧ step a e = some b

@[simp] theorem run_nil (step : σ → ε → Option σ) (s : σ) : run step s [] = some s := rfl

theorem run_cons (step : σ → ε → Option σ) (s : σ) (e : ε) (es : List ε) :
    run step s (e :: es) = (step s e).bind fun s' => run step s' es := rfl

/-- A run that starts with an enabled event goes on from the state it leaves. -/
theorem run_cons_of_step {step : σ → ε → Option σ} {s s' : σ} {e : ε} (h : step s e = some s') (es : List ε) :
    run step s (e :: es) = run step s' es := by
  rw [run_cons, h, Option.bind_some]

/-- A run of two parts is the second part run from where the first one ends. -/
theorem run_append (step : σ → ε → Option σ) (s : σ) (es fs : List ε) :
    run step s (es ++ fs) = (run step s es).bind fun s' => run step s' fs := by
  induction es generalizing s with
  | nil => rfl
  | cons e es ih =>
    rw [List.cons_append, run_cons, run_cons]
    cases h : step s e with
    | none => rfl
    | some s' => exact ih s'

/-- The states of a run that starts with an enabled event: the first one, and those of the rest. -/
theorem states_cons_of_step {step : σ → ε → Option σ} {s s' : σ} {e : ε} (h : step s e = some s') (es : List ε) :
    states step s (e :: es) = s :: states step s' es := by
  simp only [states, h, Option.map_some, Option.getD_some]

/-- The states of a run: the first one, and those after the first event, if it is enabled. -/
theorem mem_states_cons {step : σ → ε → Option σ} {s t : σ} {e : ε} {es : List ε} :
    t ∈ states step s (e :: es) ↔ t = s ∨ ∃ s', step s e = some s' ∧ t ∈ states step s' es := by
  cases h : step s e with
  | none => simp [states, h]
  | some s' => simp [states, h]

/-- The state a run starts from is one of its states. -/
theorem mem_states_self (step : σ → ε → Option σ) (s : σ) (es : List ε) : s ∈ states step s es := by
  cases es <;> simp [states]

/-- The state a run ends in is one of its states. -/
theorem run_mem_states {step : σ → ε → Option σ} {s t : σ} {es : List ε} (h : run step s es = some t) :
    t ∈ states step s es := by
  induction es generalizing s with
  | nil =>
    cases h
    exact mem_states_self step _ []
  | cons e es ih =>
    rw [run_cons] at h
    cases hs : step s e with
    | none => simp [hs] at h
    | some s' =>
      rw [hs, Option.bind_some] at h
      rw [states_cons_of_step hs]
      exact List.mem_cons_of_mem _ (ih h)

/-- What every step that meets a condition keeps, every state of a run whose steps meet it has. -/
theorem EachStep.invariant {step : σ → ε → Option σ} {ok : σ → ε → Prop} {P : σ → Prop}
    (hstep : ∀ s e s', P s → ok s e → step s e = some s' → P s') {s : σ} {es : List ε} (hs : P s)
    (hok : EachStep step ok s es) : ∀ t ∈ states step s es, P t := by
  induction es generalizing s with
  | nil =>
    intro t ht
    rw [List.mem_singleton.mp ht]
    exact hs
  | cons e es ih =>
    intro t ht
    rcases mem_states_cons.mp ht with rfl | ⟨s', h, ht⟩
    · exact hs
    · obtain ⟨he, hrest⟩ := hok s' h
      exact ih (hstep s e s' hs he h) hrest t ht

/-- Events that meet a condition in any state meet it in every run. -/
theorem EachStep.of_forall {step : σ → ε → Option σ} {ok : σ → ε → Prop} {es : List ε} (h : ∀ e ∈ es, ∀ s, ok s e) (s : σ) :
    EachStep step ok s es := by
  induction es generalizing s with
  | nil => trivial
  | cons e es ih =>
    obtain ⟨he, hes⟩ := List.forall_mem_cons.mp h
    exact fun s' _ => ⟨he s, ih hes s'⟩

/-- What every step keeps, every state of a run has. -/
theorem states_invariant {step : σ → ε → Option σ} {P : σ → Prop} (hstep : ∀ s e s', P s → step s e = some s' → P s')
    {s : σ} (hs : P s) (es : List ε) : ∀ t ∈ states step s es, P t := by
  have hok : EachStep step (fun _ _ => True) s es := EachStep.of_forall (fun _ _ _ => trivial) s
  exact EachStep.invariant (fun s e s' hs _ h => hstep s e s' hs h) hs hok

/-- What every step keeps, a run keeps. -/
theorem run_invariant {step : σ → ε → Option σ} {P : σ → Prop} (hstep : ∀ s e s', P s → step s e = some s' → P s')
    {s t : σ} {es : List ε} (hs : P s) (h : run step s es = some t) : P t :=
  states_invariant hstep hs es t (run_mem_states h)

/-- What every event of a run keeps, the run keeps. -/
theorem run_invariant_of_mem {step : σ → ε → Option σ} {P : σ → Prop} {es : List ε}
    (hstep : ∀ e ∈ es, ∀ s s', P s → step s e = some s' → P s') {s t : σ} (hs : P s) (h : run step s es = some t) : P t := by
  induction es generalizing s with
  | nil =>
    cases h
    exact hs
  | cons e es ih =>
    rw [run_cons] at h
    obtain ⟨s', hs', h⟩ := Option.bind_eq_some_iff.mp h
    obtain ⟨he, hes⟩ := List.forall_mem_cons.mp hstep
    exact ih hes (he s s' hs hs') h

/-- A step of a run: what leads to it, and what leads on from it to the end. -/
theorem Takes.split {step : σ → ε → Option σ} {s t a b : σ} {es : List ε} {e : ε} (h : Takes step s es a e b)
    (hrun : run step s es = some t) :
    (∃ before, run step s before = some a) ∧ step a e = some b ∧ ∃ after, run step b after = some t := by
  obtain ⟨before, after, rfl, hbefore, hstep⟩ := h
  rw [run_append, hbefore, Option.bind_some, run_cons_of_step hstep] at hrun
  exact ⟨⟨before, hbefore⟩, hstep, after, hrun⟩

/-- A run that starts with an enabled event takes it. -/
theorem Takes.head {step : σ → ε → Option σ} {s s' : σ} {e : ε} (h : step s e = some s') (es : List ε) :
    Takes step s (e :: es) s e s' :=
  ⟨[], es, rfl, rfl, h⟩

/-- The steps that the rest of a run takes are steps of the run. -/
theorem Takes.tail {step : σ → ε → Option σ} {s s' a b : σ} {es : List ε} {d e : ε} (hstep : step s d = some s')
    (h : Takes step s' es a e b) : Takes step s (d :: es) a e b := by
  obtain ⟨before, after, rfl, hbefore, htaken⟩ := h
  exact ⟨d :: before, after, rfl, by rw [run_cons_of_step hstep, hbefore], htaken⟩

/-- The exact condition of an invariant on runs whose states all meet `Q`. `I` is what every step keeps; `P` is what is wanted of
every state. When `P` holds in a state with `I`, an enabled step keeps `P` exactly when it meets the condition. Then `P` holds in
every state of a run exactly when every step of the run meets the condition. -/
theorem states_iff_eachStep_while {step : σ → ε → Option σ} {I P Q : σ → Prop} {ok : σ → ε → Prop}
    (hI : ∀ s e s', I s → Q s' → step s e = some s' → I s')
    (hstep : ∀ s e s', I s → P s → Q s' → step s e = some s' → (P s' ↔ ok s e))
    {s : σ} (hi : I s) (hs : P s) (es : List ε) (hq : ∀ t ∈ states step s es, Q t) :
    (∀ t ∈ states step s es, P t) ↔ EachStep step ok s es := by
  induction es generalizing s with
  | nil =>
    refine ⟨fun _ => trivial, fun _ t ht => ?_⟩
    rw [List.mem_singleton.mp ht]
    exact hs
  | cons e es ih =>
    cases h : step s e with
    | none =>
      simp only [states, h, Option.map_none, Option.getD_none, List.mem_singleton, EachStep]
      refine ⟨fun _ s' hn => ?_, fun _ t ht => ht ▸ hs⟩
      cases hn
    | some s' =>
      rw [states_cons_of_step h] at hq ⊢
      obtain ⟨-, hq⟩ := List.forall_mem_cons.mp hq
      have hq' : Q s' := hq s' (mem_states_self step s' es)
      simp only [List.mem_cons, forall_eq_or_imp, EachStep, h, Option.some.injEq, forall_eq']
      constructor
      · rintro ⟨-, hall⟩
        have hs' : P s' := hall s' (mem_states_self step s' es)
        exact ⟨(hstep s e s' hi hs hq' h).mp hs', (ih (hI s e s' hi hq' h) hs' hq).mp hall⟩
      · rintro ⟨ho, hrest⟩
        have hs' : P s' := (hstep s e s' hi hs hq' h).mpr ho
        exact ⟨hs, (ih (hI s e s' hi hq' h) hs' hq).mpr hrest⟩

/-- The exact condition of an invariant on all runs. -/
theorem states_iff_eachStep {step : σ → ε → Option σ} {I P : σ → Prop} {ok : σ → ε → Prop}
    (hI : ∀ s e s', I s → step s e = some s' → I s')
    (hstep : ∀ s e s', I s → P s → step s e = some s' → (P s' ↔ ok s e))
    {s : σ} (hi : I s) (hs : P s) (es : List ε) : (∀ t ∈ states step s es, P t) ↔ EachStep step ok s es :=
  states_iff_eachStep_while (Q := fun _ => True) (fun s e s' hi _ h => hI s e s' hi h)
    (fun s e s' hi hs _ h => hstep s e s' hi hs h) hi hs es fun _ _ => trivial

end Runs

end Soroscan
