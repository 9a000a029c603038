import SimpleFS.Foundation.Runs

/-! Forward simulation. A system each of whose steps another one matches, or does not see, has no
other histories than that one. -/
namespace Runs

variable {σ τ ι κ : Type*}

/-- The system gets from `start` to `s`, and `events` has happened, the latest last. -/
abbrev History (step : σ → ι → σ → Prop) (start : σ) (events : List ι) (s : σ) : Prop :=
  Run step (fun _ i _ events => events ++ [i]) start [] s events

/-- A step of the matching system from `t`, or none where it sees no event, leads to where `R` relates
it to `s'`. -/
def Matches (step' : τ → κ → τ → Prop) (R : σ → τ → Prop) (t : τ) (s' : σ) : Option κ → Prop
  | some k => ∃ t', step' t k t' ∧ R s' t'
  | none => R s' t

/-- Seen through `view`, every step is one of the other system. -/
def Simulates (step : σ → ι → σ → Prop) (step' : τ → κ → τ → Prop) (view : ι → Option κ)
    (R : σ → τ → Prop) : Prop :=
  ∀ s t i s', R s t → step s i s' → Matches step' R t s' (view i)

/-- A history is a history of the simulating system, without the events that it does not see. -/
theorem Simulates.history {step : σ → ι → σ → Prop} {step' : τ → κ → τ → Prop}
    {view : ι → Option κ} {R : σ → τ → Prop} (h : Simulates step step' view R) {start s : σ}
    {start' : τ} (hstart : R start start') {events : List ι} (hrun : History step start events s) :
    ∃ t, History step' start' (events.filterMap view) t ∧ R s t := by
  induction hrun with
  | start => exact ⟨start', .start, hstart⟩
  | @step s s' events i _ hs ih =>
    obtain ⟨t, hhistory, hR⟩ := ih
    have hmatch := h s t i s' hR hs
    rw [List.filterMap_append]
    cases hview : view i with
    | none =>
      rw [hview] at hmatch
      refine ⟨t, ?_, hmatch⟩
      rw [List.filterMap_cons_none hview, List.filterMap_nil, List.append_nil]
      exact hhistory
    | some k =>
      rw [hview] at hmatch
      obtain ⟨t', hstep, hR'⟩ := hmatch
      refine ⟨t', ?_, hR'⟩
      rw [List.filterMap_cons_some hview, List.filterMap_nil]
      exact hhistory.step k hstep

end Runs
