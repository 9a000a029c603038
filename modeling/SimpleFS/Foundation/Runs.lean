import Mathlib.Logic.Relation

/-! Runs of a system that takes labelled steps, with a record of what has happened. -/
namespace Runs

variable {σ ι γ : Type*}

/-- The states that a run reaches, and what `note` made of the steps on the way. -/
inductive Run (step : σ → ι → σ → Prop) (note : σ → ι → σ → γ → γ) (start : σ) (first : γ) :
    σ → γ → Prop
  | start : Run step note start first start first
  | step {s s' g} (i : ι) : Run step note start first s g → step s i s' →
      Run step note start first s' (note s i s' g)

/-- A run that keeps no record. -/
abbrev Reach (step : σ → ι → σ → Prop) (start s : σ) : Prop :=
  Run step (fun _ _ _ u => u) start () s ()

namespace Run

variable {step : σ → ι → σ → Prop} {note : σ → ι → σ → γ → γ} {start s : σ} {first g : γ}

/-- What holds at the start and is preserved by every step holds along the run. -/
theorem invariant {P : σ → γ → Prop} (h : Run step note start first s g) (h0 : P start first)
    (hstep : ∀ s i s' g, P s g → step s i s' → P s' (note s i s' g)) : P s g := by
  induction h with
  | start => exact h0
  | step i _ hs ih => exact hstep _ i _ _ ih hs

/-- The same for what only the state decides. -/
theorem invariant_state {P : σ → Prop} (h : Run step note start first s g) (h0 : P start)
    (hstep : ∀ s i s', P s → step s i s' → P s') : P s :=
  h.invariant h0 fun s i s' _ hp hs => hstep s i s' hp hs

/-- One run after another. -/
theorem trans {s' : σ} {g' : γ} (h : Run step note start first s g)
    (h' : Run step note s g s' g') : Run step note start first s' g' := by
  induction h' with
  | start => exact h
  | step i _ hs ih => exact ih.step i hs

end Run

end Runs
