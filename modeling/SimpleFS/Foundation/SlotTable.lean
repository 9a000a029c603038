import Mathlib.Data.List.Basic

/-! Tables of reusable slots: a new item goes to the first empty slot, or else a block of slots
is appended; an item is removed by blanking its slot. -/
namespace SlotTable

variable {α : Type*} (empty : α → Bool)

/-- The items, in the order of their slots. -/
def live (t : List α) : List α := t.filter fun x => !empty x

/-- The number of slots before the first empty one. -/
def front (t : List α) : ℕ := (t.takeWhile fun x => !empty x).length

/-- Put `a` in the first empty slot; a full table gets `a` and then the slots `pad`. -/
def insert (a : α) (pad : List α) : List α → List α
  | [] => a :: pad
  | x :: xs => if empty x then a :: xs else x :: insert a pad xs

/-- Blank the first item with property `p`. -/
def clear (p : α → Bool) (blank : α → α) : List α → List α
  | [] => []
  | x :: xs => if !empty x && p x then blank x :: xs else x :: clear p blank xs

variable {empty}

theorem mem_live {t : List α} {x : α} : x ∈ live empty t ↔ x ∈ t ∧ empty x = false := by
  simp [live]

theorem front_le_length_live (t : List α) : front empty t ≤ (live empty t).length := by
  induction t with
  | nil => simp [front, live]
  | cons x xs ih =>
    cases hx : empty x with
    | true => simp [front, hx]
    | false => simpa [front, live, hx] using ih

theorem insert_of_split {a old : α} {pad pre post : List α} (hpre : ∀ x ∈ pre, empty x = false)
    (hold : empty old = true) :
    insert empty a pad (pre ++ old :: post) = pre ++ a :: post := by
  induction pre with
  | nil => simp [insert, hold]
  | cons x pre ih =>
    rw [List.cons_append, insert, if_neg (by simp [hpre x (by simp)]),
      ih fun y hy => hpre y (by simp [hy]), List.cons_append]

theorem insert_of_full {a : α} {pad t : List α} (h : ∀ x ∈ t, empty x = false) :
    insert empty a pad t = t ++ a :: pad := by
  induction t with
  | nil => rfl
  | cons x xs ih =>
    rw [insert, if_neg (by simp [h x (by simp)]), ih fun y hy => h y (by simp [hy]),
      List.cons_append]

theorem clear_of_split {p : α → Bool} {blank : α → α} {pre post : List α} {x : α}
    (hpre : ∀ y ∈ pre, empty y = true ∨ p y = false) (hx : empty x = false) (hp : p x = true) :
    clear empty p blank (pre ++ x :: post) = pre ++ blank x :: post := by
  induction pre with
  | nil => simp [clear, hx, hp]
  | cons y pre ih =>
    rw [List.cons_append, clear, if_neg, ih fun z hz => hpre z (by simp [hz]), List.cons_append]
    rcases hpre y (by simp) with h | h <;> simp [h]

/-- An insertion adds the new item to the items, at the place of the first empty slot. -/
theorem live_insert {a : α} {pad t : List α} (ha : empty a = false)
    (hpad : ∀ x ∈ pad, empty x = true) :
    live empty (insert empty a pad t) =
      (live empty t).take (front empty t) ++ a :: (live empty t).drop (front empty t) := by
  induction t with
  | nil =>
    have hnil : pad.filter (fun x => !empty x) = [] := by
      simpa [List.filter_eq_nil_iff] using hpad
    simp [live, insert, front, ha, hnil]
  | cons x xs ih =>
    cases hx : empty x with
    | true => simp [live, insert, front, hx, ha]
    | false => simpa [live, insert, front, hx] using ih

/-- A removal takes the first item with the property out of the items. -/
theorem live_clear {p : α → Bool} {blank : α → α} (hblank : ∀ x, empty (blank x) = true)
    (t : List α) : live empty (clear empty p blank t) = (live empty t).eraseP p := by
  induction t with
  | nil => rfl
  | cons x xs ih =>
    cases hx : empty x with
    | true => simpa [live, clear, hx] using ih
    | false =>
      cases hp : p x with
      | true => simp [live, clear, hx, hp, hblank]
      | false => simpa [live, clear, hx, hp] using ih

theorem length_insert {a : α} {pad t : List α} :
    (insert empty a pad t).length =
      if t.all fun x => !empty x then t.length + (pad.length + 1) else t.length := by
  induction t with
  | nil => simp [insert]
  | cons x xs ih =>
    cases hx : empty x with
    | true => simp [insert, hx]
    | false =>
      simp only [insert, hx, Bool.false_eq_true, if_false, List.length_cons, ih, List.all_cons,
        Bool.not_false, Bool.true_and]
      split_ifs <;> omega

theorem perm_live_insert {a : α} {pad t : List α} (ha : empty a = false)
    (hpad : ∀ x ∈ pad, empty x = true) :
    (live empty (insert empty a pad t)).Perm (a :: live empty t) := by
  rw [live_insert ha hpad]
  exact List.perm_middle.trans ((List.take_append_drop _ _).symm ▸ List.Perm.refl _)

theorem mem_live_insert {a : α} {pad t : List α} (ha : empty a = false)
    (hpad : ∀ x ∈ pad, empty x = true) {x : α} :
    x ∈ live empty (insert empty a pad t) ↔ x = a ∨ x ∈ live empty t := by
  rw [(perm_live_insert ha hpad).mem_iff, List.mem_cons]

end SlotTable
