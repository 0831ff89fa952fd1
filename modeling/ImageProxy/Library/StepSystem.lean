import Mathlib.Data.List.Basic

set_option autoImplicit false

/-! # Event-driven step systems

A step system is a partial function `step : σ → ε → Option σ`: in state `s` the event `e` is either
impossible (`none`) or leads to one next state. All nondeterminism (which thread runs, what a remote
party answered) sits in the choice of events, so a run is a list of events and a claim about every
interleaving is a claim about every list.

The rules below turn facts about one step into facts about whole runs; nothing here knows which
system is being run. -/

namespace StepSystem

variable {σ ε : Type}

/-- Run the events in order, stopping with `none` at the first impossible one. -/
def run (step : σ → ε → Option σ) : σ → List ε → Option σ
  | s, [] => some s
  | s, e :: es => (step s e).bind fun s' => run step s' es

/-- `s` is reached from `s₀` by some list of events. -/
def Reachable (step : σ → ε → Option σ) (s₀ s : σ) : Prop :=
  ∃ es, run step s₀ es = some s

/-- `P` holds of every state the run visits, the first one included. -/
def EveryState (step : σ → ε → Option σ) (P : σ → Prop) : σ → List ε → Prop
  | s, [] => P s
  | s, e :: es => P s ∧ ∀ s', step s e = some s' → EveryState step P s' es

/-- `C s e` holds at every step the run takes, `s` being the state before the step. -/
def EveryStep (step : σ → ε → Option σ) (C : σ → ε → Prop) : σ → List ε → Prop
  | _, [] => True
  | s, e :: es => C s e ∧ ∀ s', step s e = some s' → EveryStep step C s' es

variable {step : σ → ε → Option σ}

@[simp] theorem run_nil (s : σ) : run step s [] = some s := rfl

@[simp] theorem run_cons (s : σ) (e : ε) (es : List ε) :
    run step s (e :: es) = (step s e).bind fun s' => run step s' es := rfl

/-- A run that has a first step. -/
theorem run_cons_eq_some {s s' : σ} {e : ε} {es : List ε} :
    run step s (e :: es) = some s' ↔ ∃ t, step s e = some t ∧ run step t es = some s' :=
  Option.bind_eq_some_iff

theorem run_append (s : σ) (es fs : List ε) :
    run step s (es ++ fs) = (run step s es).bind fun s' => run step s' fs := by
  induction es generalizing s with
  | nil => rfl
  | cons e es ih =>
      simp only [List.cons_append, run_cons]
      cases step s e with
      | none => rfl
      | some s' => simpa using ih s'

/-- A run that has a last step. -/
theorem run_concat_eq_some {s s' : σ} {es : List ε} {e : ε} :
    run step s (es ++ [e]) = some s' ↔ ∃ t, run step s es = some t ∧ step t e = some s' := by
  rw [run_append, Option.bind_eq_some_iff]
  simp

theorem Reachable.refl (s : σ) : Reachable step s s := ⟨[], rfl⟩

theorem Reachable.next {s₀ s s' : σ} {e : ε} (h : Reachable step s₀ s)
    (he : step s e = some s') : Reachable step s₀ s' := by
  obtain ⟨es, hes⟩ := h
  exact ⟨es ++ [e], by simp [run_append, hes, he]⟩

/-- The induction behind every safety result: what one step preserves, a run preserves. -/
theorem run_invariant {Inv : σ → Prop}
    (hstep : ∀ s e s', Inv s → step s e = some s' → Inv s') {s s' : σ} {es : List ε}
    (hrun : run step s es = some s') (hs : Inv s) : Inv s' := by
  induction es generalizing s with
  | nil => cases hrun; exact hs
  | cons e es ih =>
      obtain ⟨t, he, hrun⟩ := run_cons_eq_some.1 hrun
      exact ih hrun (hstep s e t hs he)

theorem Reachable.invariant {Inv : σ → Prop}
    (hstep : ∀ s e s', Inv s → step s e = some s' → Inv s') {s₀ s : σ}
    (h : Reachable step s₀ s) (h₀ : Inv s₀) : Inv s := by
  obtain ⟨es, hes⟩ := h
  exact run_invariant hstep hes h₀

/-- An invariant that needs a side condition on each step holds along every run whose steps all
meet it. -/
theorem EveryState.of_steps {Inv : σ → Prop} {C : σ → ε → Prop}
    (hstep : ∀ s e s', Inv s → C s e → step s e = some s' → Inv s') {s : σ} {es : List ε}
    (hs : Inv s) (hC : EveryStep step C s es) : EveryState step Inv s es := by
  induction es generalizing s with
  | nil => exact hs
  | cons e es ih =>
      obtain ⟨hhead, htail⟩ := hC
      exact ⟨hs, fun s' he => ih (hstep s e s' hs hhead he) (htail s' he)⟩

theorem EveryStep.cons {C : σ → ε → Prop} {s s' : σ} {e : ε} {es : List ε} (hC : C s e)
    (he : step s e = some s') (h : EveryStep step C s' es) : EveryStep step C s (e :: es) :=
  ⟨hC, fun t ht => by rw [he] at ht; cases ht; exact h⟩

/-- What holds at a step that meets the side condition, in a state with the invariant, holds at every
step of such a run. -/
theorem EveryStep.of_steps {Inv : σ → Prop} {C P : σ → ε → Prop}
    (hstep : ∀ s e s', Inv s → C s e → step s e = some s' → Inv s')
    (hP : ∀ s e, Inv s → C s e → P s e) {s : σ} {es : List ε} (hs : Inv s)
    (hC : EveryStep step C s es) : EveryStep step P s es := by
  induction es generalizing s with
  | nil => trivial
  | cons e es ih =>
      obtain ⟨hhead, htail⟩ := hC
      exact ⟨hP s e hs hhead, fun s' he => ih (hstep s e s' hs hhead he) (htail s' he)⟩

theorem EveryState.mono {P Q : σ → Prop} (hPQ : ∀ s, P s → Q s) {s : σ} {es : List ε}
    (h : EveryState step P s es) : EveryState step Q s es := by
  induction es generalizing s with
  | nil => exact hPQ s h
  | cons e es ih => exact ⟨hPQ s h.1, fun s' he => ih (h.2 s' he)⟩

theorem EveryState.head {P : σ → Prop} {s : σ} {es : List ε}
    (h : EveryState step P s es) : P s := by
  cases es with
  | nil => exact h
  | cons e es => exact h.1

theorem EveryState.last {P : σ → Prop} {s s' : σ} {es : List ε}
    (h : EveryState step P s es) (hrun : run step s es = some s') : P s' := by
  induction es generalizing s with
  | nil => cases hrun; exact h
  | cons e es ih =>
      obtain ⟨t, he, hrun⟩ := run_cons_eq_some.1 hrun
      exact ih (h.2 t he) hrun

/-- Every step of a run meets the condition exactly if the step after every part of the run does. -/
theorem everyStep_iff {C : σ → ε → Prop} {s : σ} {es : List ε} : EveryStep step C s es ↔
    ∀ pre e post s', es = pre ++ e :: post → run step s pre = some s' → C s' e := by
  induction es generalizing s with
  | nil => simp [EveryStep]
  | cons e es ih =>
      constructor
      · rintro ⟨hhead, htail⟩ pre e' post s' heq hrun
        cases pre with
        | nil =>
            cases heq
            cases hrun
            exact hhead
        | cons e'' pre =>
            cases heq
            obtain ⟨t, ht, hrun⟩ := run_cons_eq_some.1 hrun
            exact ih.1 (htail t ht) pre e' post s' rfl hrun
      · intro h
        refine ⟨h [] e es s rfl rfl, fun t ht => ih.2 fun pre e' post s' heq hrun => ?_⟩
        refine h (e :: pre) e' post s' (by rw [heq, List.cons_append]) ?_
        exact run_cons_eq_some.2 ⟨t, ht, hrun⟩

/-- A condition on the steps that keeps an invariant, and without which the next state lacks a part of
it, is exactly what every state of a run needs to have that part. -/
theorem everyState_iff_everyStep {Inv P : σ → Prop} {C : σ → ε → Prop} (hP : ∀ s, Inv s → P s)
    (hkeeps : ∀ s e s', Inv s → C s e → step s e = some s' → Inv s')
    (hneeded : ∀ s e s', Inv s → step s e = some s' → P s' → C s e)
    (himpossible : ∀ s e, step s e = none → C s e) {s : σ} {es : List ε} (hs : Inv s) :
    EveryState step P s es ↔ EveryStep step C s es := by
  refine ⟨fun h => ?_, fun h => (EveryState.of_steps hkeeps hs h).mono hP⟩
  induction es generalizing s with
  | nil => trivial
  | cons e es ih =>
      have hhead : C s e := by
        cases he : step s e with
        | none => exact himpossible s e he
        | some s' => exact hneeded s e s' hs he (h.2 s' he).head
      exact ⟨hhead, fun s' he => ih (hkeeps s e s' hs hhead he) (h.2 s' he)⟩

end StepSystem
