import Mathlib.Init
import Mathlib.Tactic.ByContra

/-! Calls of a program whose loops may go on for ever and whose failed system calls end it. -/

/-- What a call comes to: a result, or the exit of the program. `none` is a call that goes on for
ever. -/
abbrev Call := ExceptT Unit Option

namespace Call

variable {α β : Type}

@[simp] theorem pure_inj {a b : α} : (pure a : Call α) = pure b ↔ a = b := by
  constructor
  · intro h
    cases h
    rfl
  · exact congrArg pure

theorem exit_ne_pure (a : α) : (throw () : Call α) ≠ pure a := nofun

/-- A call that returns does so through the result of its first part. -/
theorem bind_eq_pure {x : Call α} {f : α → Call β} {b : β} :
    x >>= f = pure b ↔ ∃ a, x = pure a ∧ f a = pure b := by
  constructor
  · intro h
    match x, h with
    | some (.ok a), h => exact ⟨a, rfl, h⟩
  · rintro ⟨a, rfl, h⟩
    exact h

/-- A part that may go on for ever but has no exit. -/
theorem lift_eq_pure {x : Option α} {a : α} : (liftM x : Call α) = pure a ↔ x = some a := by
  cases x with
  | none => exact ⟨nofun, nofun⟩
  | some b => exact (pure_inj (a := b)).trans (Option.some_inj).symm

/-- The call ends: it returns, or the program exits. -/
def Ends (x : Call α) : Prop := x ≠ none

@[simp] theorem ends_pure (a : α) : (pure a : Call α).Ends := nofun

@[simp] theorem ends_exit : (throw () : Call α).Ends := nofun

theorem not_ends : ¬Ends (none : Call α) := fun h => h rfl

theorem ends_lift {x : Option α} : (liftM x : Call α).Ends ↔ x ≠ none := by
  cases x with
  | none => exact ⟨fun h => absurd rfl h, fun h => absurd rfl h⟩
  | some a => exact ⟨fun _ => nofun, fun _ => ends_pure a⟩

/-- Two parts, one after the other: the second matters where the first returns. -/
theorem ends_bind {x : Call α} {f : α → Call β} :
    (x >>= f).Ends ↔ x.Ends ∧ ∀ a, x = pure a → (f a).Ends := by
  match x with
  | none => exact ⟨fun h => absurd rfl h, fun h => absurd rfl h.1⟩
  | some (.error ()) => exact ⟨fun _ => ⟨nofun, fun _ h => nomatch h⟩, fun _ => nofun⟩
  | some (.ok a) =>
    refine ⟨fun h => ⟨nofun, fun b hb => ?_⟩, fun h => h.2 a rfl⟩
    cases hb
    exact h

section Loops

/-- One call comes to what the other does, unless it goes on for ever. -/
def Below (x y : Call α) : Prop := x = none ∨ x = y

variable {Φ ι : Type} {call : Φ → ι → Call α} {R : Φ → Φ → Prop} {c : Φ → Prop}

/-- What a least upper bound returns, one of the functions below it returns. -/
theorem exists_of_bound (hR : ∀ f g, R f g ↔ ∀ i, Below (call f i) (call g i))
    (hcut : ∀ f i, ∃ g, call g i = none ∧ ∀ j, j ≠ i → call g j = call f j) {F : Φ}
    (hF : ∀ G, R F G ↔ ∀ f, c f → R f G) {i : ι} {a : α} (ha : call F i = pure a) :
    ∃ f, c f ∧ call f i = pure a := by
  by_contra hnone
  -- Otherwise the bound that goes on for ever on `i` is a smaller one.
  obtain ⟨G, hi, hj⟩ := hcut F i
  have hbelow := (hF F).mp ((hR F F).mpr fun _ => Or.inr rfl)
  have hle : R F G := by
    apply (hF G).mpr
    intro f hf
    apply (hR f G).mpr
    intro j
    have hfF := (hR f F).mp (hbelow f hf) j
    by_cases hij : j = i
    · subst hij
      rcases hfF with hn | heq
      · exact Or.inl hn
      · exact absurd ⟨f, hf, heq.trans ha⟩ hnone
    · rw [hj j hij]
      exact hfF
  rcases (hR F G).mp hle i with hn | heq
  · rw [ha] at hn
    cases hn
  · rw [ha, hi] at heq
    cases heq

/-- A loop is the least upper bound of what it comes to with more and more turns. What holds of all
that these return holds of all that it returns. -/
theorem forall_of_bound (call : Φ → ι → Call α)
    (hR : ∀ f g, R f g ↔ ∀ i, Below (call f i) (call g i))
    (hcut : ∀ f i, ∃ g, call g i = none ∧ ∀ j, j ≠ i → call g j = call f j)
    (h : ∃ F, ∀ G, R F G ↔ ∀ f, c f → R f G) {P : ι → α → Prop}
    (hall : ∀ f, c f → ∀ i a, call f i = pure a → P i a) (i : ι) (a : α)
    (ha : call (Classical.choose h) i = pure a) : P i a := by
  obtain ⟨f, hf, hfa⟩ := exists_of_bound hR hcut (Classical.choose_spec h) ha
  exact hall f hf i a hfa

end Loops

end Call
