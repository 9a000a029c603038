import Mathlib.Data.List.Range

/-! Loops of a program that may panic. `none` is a panic throughout. -/
namespace Scan

variable {α β γ : Type*}

/-- A `for` loop over a list that can leave early: `some (some a)` is the early return. -/
def scanM (f : β → Option (Option α)) : List β → Option (Option α)
  | [] => some none
  | x :: xs => do
    match ← f x with
    | some a => some (some a)
    | none => scanM f xs

@[simp] theorem scanM_nil (f : β → Option (Option α)) : scanM f [] = some none := rfl

theorem scanM_cons (f : β → Option (Option α)) (x : β) (xs : List β) :
    scanM f (x :: xs) = (f x).bind fun
      | some a => some (some a)
      | none => scanM f xs := rfl

theorem scanM_congr {f g : β → Option (Option α)} {xs : List β} (h : ∀ x ∈ xs, f x = g x) :
    scanM f xs = scanM g xs := by
  induction xs with
  | nil => rfl
  | cons x xs ih =>
    rw [scanM_cons, scanM_cons, h x (by simp), ih fun y hy => h y (by simp [hy])]

/-- A body that panics less often gives the same results. -/
theorem scanM_mono {f g : β → Option (Option α)} {xs : List β}
    (h : ∀ x ∈ xs, ∀ y, f x = some y → g x = some y) {r : Option α}
    (hr : scanM f xs = some r) : scanM g xs = some r := by
  induction xs with
  | nil => exact hr
  | cons x xs ih =>
    rw [scanM_cons] at hr ⊢
    obtain ⟨y, hy, hr⟩ := Option.bind_eq_some_iff.mp hr
    rw [h x (by simp) y hy, Option.bind_some]
    cases y with
    | some a => exact hr
    | none => exact ih (fun z hz => h z (by simp [hz])) hr

/-- A loop whose body never panics is a search. -/
theorem scanM_pure {f : β → Option (Option α)} {g : β → Option α} {xs : List β}
    (h : ∀ x ∈ xs, f x = some (g x)) : scanM f xs = some (xs.findSome? g) := by
  induction xs with
  | nil => rfl
  | cons x xs ih =>
    rw [scanM_cons, h x (by simp), List.findSome?_cons]
    cases hg : g x with
    | none => simpa using ih fun y hy => h y (by simp [hy])
    | some a => rfl

theorem scanM_map (f : γ → Option (Option α)) (g : β → γ) (xs : List β) :
    scanM f (xs.map g) = scanM (fun x => f (g x)) xs := by
  induction xs with
  | nil => rfl
  | cons x xs ih => rw [List.map_cons, scanM_cons, scanM_cons, ih]

theorem scanM_append (f : β → Option (Option α)) (xs ys : List β) :
    scanM f (xs ++ ys) = (scanM f xs).bind fun
      | some a => some (some a)
      | none => scanM f ys := by
  induction xs with
  | nil => rfl
  | cons x xs ih =>
    rw [List.cons_append, scanM_cons, scanM_cons, ih]
    cases f x with
    | none => rfl
    | some r => cases r <;> rfl

/-- Two nested loops are one loop over the concatenated inner ranges. -/
theorem scanM_flatMap (f : γ → Option (Option α)) (g : β → List γ) (xs : List β) :
    scanM f (xs.flatMap g) = scanM (fun x => scanM f (g x)) xs := by
  induction xs with
  | nil => rfl
  | cons x xs ih => rw [List.flatMap_cons, scanM_append, scanM_cons, ih]

/-- A loop that skips what `g` does not map is a loop over what it maps. -/
theorem scanM_filterMap (f : γ → Option (Option α)) (g : β → Option γ) (xs : List β) :
    scanM f (xs.filterMap g) = scanM (fun x => match g x with
      | none => some none
      | some y => f y) xs := by
  induction xs with
  | nil => rfl
  | cons x xs ih =>
    rw [scanM_cons, List.filterMap_cons]
    cases hg : g x with
    | none => simpa using ih
    | some y => rw [scanM_cons, ih]

/-- What a loop that returns has done: it found something at some position and nothing
before, or it went through everything. -/
theorem scanM_eq_some {f : β → Option (Option α)} {xs : List β} {r : Option α}
    (h : scanM f xs = some r) :
    (r = none ∧ ∀ x ∈ xs, f x = some none) ∨
      ∃ a pre x post, r = some a ∧ xs = pre ++ x :: post ∧ f x = some (some a) ∧
        ∀ y ∈ pre, f y = some none := by
  induction xs with
  | nil => exact Or.inl ⟨by simpa using h.symm, by simp⟩
  | cons x xs ih =>
    rw [scanM_cons] at h
    obtain ⟨q, hq, h⟩ := Option.bind_eq_some_iff.mp h
    cases q with
    | some a =>
      exact Or.inr ⟨a, [], x, xs, by simpa using h.symm, rfl, hq, by simp⟩
    | none =>
      rcases ih h with ⟨rfl, hn⟩ | ⟨a, pre, y, post, hr, rfl, hy, hpre⟩
      · exact Or.inl ⟨rfl, List.forall_mem_cons.mpr ⟨hq, hn⟩⟩
      · exact Or.inr ⟨a, x :: pre, y, post, hr, rfl, hy, List.forall_mem_cons.mpr ⟨hq, hpre⟩⟩

/-- The same for a loop over consecutive numbers. -/
theorem scanM_range'_eq_some {f : ℕ → Option (Option α)} {lo n : ℕ} {r : Option α}
    (h : scanM f (List.range' lo n) = some r) :
    (r = none ∧ ∀ i, lo ≤ i → i < lo + n → f i = some none) ∨
      ∃ a i, r = some a ∧ lo ≤ i ∧ i < lo + n ∧ f i = some (some a) ∧
        ∀ j, lo ≤ j → j < i → f j = some none := by
  rcases scanM_eq_some h with ⟨hr, hall⟩ | ⟨a, pre, i, post, hr, hsplit, hi, hpre⟩
  · exact Or.inl ⟨hr, fun j hlo hj => hall j (List.mem_range'_1.mpr ⟨hlo, hj⟩)⟩
  · obtain ⟨k, hk, rfl, hpost⟩ := List.range'_eq_append_iff.mp hsplit
    obtain ⟨rfl, hlt, -⟩ := List.range'_eq_cons_iff.mp hpost.symm
    refine Or.inr ⟨a, lo + 1 * k, hr, by omega, by omega, by simpa using hi, fun j hlo hj => ?_⟩
    exact hpre j (List.mem_range'_1.mpr ⟨hlo, by omega⟩)

theorem findSome?_range_eq_some {f : ℕ → Option α} {n : ℕ} {a : α}
    (h : (List.range n).findSome? f = some a) :
    ∃ i < n, f i = some a ∧ ∀ j < i, f j = none := by
  rw [List.range_eq_range'] at h
  have hs : scanM (fun i => some (f i)) (List.range' 0 n) = some ((List.range' 0 n).findSome? f) :=
    scanM_pure fun _ _ => rfl
  rw [h] at hs
  rcases scanM_range'_eq_some hs with ⟨hr, -⟩ | ⟨b, i, hr, -, hi, hfi, hbefore⟩
  · cases hr
  · cases hr
    exact ⟨i, by omega, by simpa using hfi, fun j hj => by simpa using hbefore j (by omega) hj⟩

theorem mapM_eq_some_of_forall {f : β → Option α} {g : β → α} {xs : List β}
    (h : ∀ x ∈ xs, f x = some (g x)) : xs.mapM f = some (xs.map g) := by
  induction xs with
  | nil => rfl
  | cons x xs ih =>
    rw [List.mapM_cons, h x (by simp), ih fun y hy => h y (by simp [hy])]
    rfl

theorem flatMap_filterMap (p : β → Option γ) (f : γ → List α) (xs : List β) :
    (xs.filterMap p).flatMap f = (xs.map fun x => ((p x).map f).getD []).flatten := by
  induction xs with
  | nil => rfl
  | cons x xs ih =>
    rw [List.filterMap_cons, List.map_cons, List.flatten_cons, ← ih]
    cases p x <;> rfl

theorem find?_eq_findSome? (p : α → Bool) (xs : List α) :
    xs.find? p = xs.findSome? fun x => if p x then some x else none := by
  induction xs with
  | nil => rfl
  | cons x xs ih =>
    rw [List.find?_cons, List.findSome?_cons, ← ih]
    cases p x <;> rfl

/-- A left-to-right loop that keeps an invariant keeps it to its end. -/
theorem foldlM_invariant {σ : Type*} {f : σ → β → Option σ} (I : List β → σ → Prop)
    (step : ∀ done x s s', I done s → f s x = some s' → I (done ++ [x]) s')
    {xs : List β} {s s' : σ} {done : List β} (h0 : I done s)
    (h : xs.foldlM f s = some s') : I (done ++ xs) s' := by
  induction xs generalizing s done with
  | nil =>
    simp only [List.foldlM_nil, Option.pure_def, Option.some.injEq] at h
    simpa [← h] using h0
  | cons x xs ih =>
    rw [List.foldlM_cons] at h
    obtain ⟨t, ht, h⟩ := Option.bind_eq_some_iff.mp h
    simpa using ih (step done x s t h0 ht) h

end Scan
