import Mathlib.Data.List.Basic

/-! A store that changes by single writes. A crash keeps the effect of some first part of them, so
what has to survive a crash must hold after every write. -/
namespace Journal

variable {σ ω : Type*}

/-- The writes `ws`, the latest first, made on `s`. -/
def replay (apply : σ → ω → σ) (s : σ) (ws : List ω) : σ := ws.foldr (fun w s => apply s w) s

/-- `s'` comes from `s` by the writes `ws`, the latest first, and `P` holds before the first of them
and after each. -/
inductive Trail (apply : σ → ω → σ) (P : σ → Prop) (s : σ) : List ω → σ → Prop
  | start : P s → Trail apply P s [] s
  | write {ws s'} (w : ω) : Trail apply P s ws s' → P (apply s' w) →
      Trail apply P s (w :: ws) (apply s' w)

namespace Trail

variable {apply : σ → ω → σ} {P : σ → Prop} {s s' s'' : σ} {ws ws' : List ω}

theorem last (h : Trail apply P s ws s') : P s' := by
  cases h with
  | start h => exact h
  | write _ _ h => exact h

theorem trans (h : Trail apply P s ws s') (h' : Trail apply P s' ws' s'') :
    Trail apply P s (ws' ++ ws) s'' := by
  induction h' with
  | start _ => exact h
  | write w _ hP ih => exact ih.write w hP

theorem mono {Q : σ → Prop} (h : Trail apply P s ws s') (hPQ : ∀ x, P x → Q x) :
    Trail apply Q s ws s' := by
  induction h with
  | start h => exact .start (hPQ _ h)
  | write w _ hP ih => exact ih.write w (hPQ _ hP)

theorem eq_replay (h : Trail apply P s ws s') : s' = replay apply s ws := by
  induction h with
  | start _ => rfl
  | write w _ _ ih => rw [replay, List.foldr_cons, ← replay, ← ih]

/-- `P` holds wherever the writes are cut off. -/
theorem of_cut {rest made : List ω} (h : Trail apply P s (rest ++ made) s') :
    P (replay apply s made) := by
  induction rest generalizing s' with
  | nil => exact h.eq_replay ▸ h.last
  | cons w rest ih =>
    cases h with
    | write _ h _ => exact ih h

end Trail

end Journal
