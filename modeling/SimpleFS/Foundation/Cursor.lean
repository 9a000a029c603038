import Mathlib.Data.List.Basic

/-! Reading a list in pieces, at a cursor, while items come and go. -/
namespace Cursor

variable {α : Type*} {l : List α} {k k' i j m n : ℕ} {marked marked' : α → Prop} {count : α → ℕ}
  {p : α → Bool} {a x : α}

/-- Every marked item before the cursor `k` was counted once, and none from there on. -/
def Covered (l : List α) (k : ℕ) (marked : α → Prop) (count : α → ℕ) : Prop :=
  ∀ i x, l[i]? = some x → marked x → count x = if i < k then 1 else 0

namespace Covered

theorem mono (h : Covered l k marked count) (hm : ∀ x, marked' x → marked x) :
    Covered l k marked' count :=
  fun i x hx hmark => h i x hx (hm x hmark)

/-- Counting the items from the cursor to its new place. -/
theorem read (h : Covered l k marked count) {more : α → ℕ} (hk : k ≤ k')
    (hmore : ∀ i x, l[i]? = some x → marked x → more x = if k ≤ i ∧ i < k' then 1 else 0) :
    Covered l k' marked fun x => count x + more x := by
  intro i x hx hmark
  simp only [h i x hx hmark, hmore i x hx hmark]
  split_ifs <;> omega

/-- An item comes in at `j`: the item just before the cursor moves behind it, unless `j` does not
come before the cursor. -/
theorem insert (h : Covered l k marked count) (hj : j ≤ l.length) (hnew : ¬ marked a)
    (hside : k ≤ j ∨ ∀ x, l[k - 1]? = some x → ¬ marked x) :
    Covered (l.take j ++ a :: l.drop j) k marked count := by
  intro i x hx hmark
  have hlen : (l.take j).length = j := List.length_take_of_le hj
  rcases Nat.lt_trichotomy i j with hij | rfl | hij
  · rw [List.getElem?_append_left (by omega), List.getElem?_take_of_lt hij] at hx
    exact h i x hx hmark
  · rw [List.getElem?_append_right (by omega), hlen, Nat.sub_self, List.getElem?_cons_zero] at hx
    exact absurd (Option.some.inj hx ▸ hmark) hnew
  · have hold : l[i - 1]? = some x := by
      rw [List.getElem?_append_right (by omega), hlen,
        show i - j = i - 1 - j + 1 by omega, List.getElem?_cons_succ, List.getElem?_drop,
        show j + (i - 1 - j) = i - 1 by omega] at hx
      exact hx
    rw [h (i - 1) x hold hmark]
    by_cases heq : i = k
    · rcases hside with hkj | hside
      · omega
      · exact absurd hmark (hside x (heq ▸ hold))
    · split_ifs <;> omega

/-- The item at `i` goes: the item at the cursor moves before it, unless `i` does not come before
the cursor. -/
theorem erase (h : Covered l k marked count)
    (hside : k ≤ i ∨ ∀ x, l[k]? = some x → ¬ marked x) :
    Covered (l.eraseIdx i) k marked count := by
  intro j x hx hmark
  rw [List.getElem?_eraseIdx] at hx
  split_ifs at hx with hij
  · exact h j x hx hmark
  · rw [h (j + 1) x hx hmark]
    by_cases heq : j + 1 = k
    · rcases hside with hki | hside
      · omega
      · exact absurd hmark (hside x (heq ▸ hx))
    · split_ifs <;> omega

/-- The same for the first item with a property. -/
theorem eraseP (h : Covered l k marked count)
    (hside : k ≤ l.findIdx p ∨ ∀ x, l[k]? = some x → ¬ marked x) :
    Covered (l.eraseP p) k marked count := by
  have heq : l.eraseP p = l.eraseIdx (l.findIdx p) := by
    clear h hside
    induction l with
    | nil => rfl
    | cons x l ih =>
      rw [List.eraseP_cons, List.findIdx_cons]
      cases p x with
      | true => rfl
      | false => exact congrArg (List.cons x) ih
  rw [heq]
  exact h.erase hside

/-- A cursor at the end has passed every marked item once. -/
theorem all (h : Covered l k marked count) (hk : l.length ≤ k) (hx : x ∈ l) (hmark : marked x) :
    count x = 1 := by
  obtain ⟨i, hi⟩ := List.mem_iff_getElem?.mp hx
  obtain ⟨hlt, -⟩ := List.getElem?_eq_some_iff.mp hi
  rw [h i x hi hmark, if_pos (by omega)]

end Covered

/-- Where only the item at `i` has the property, it is counted among the first `n` when `i` is one
of them. -/
theorem countP_take (hp : ∀ j x, l[j]? = some x → (p x = true ↔ j = i)) (hi : i < l.length) :
    (l.take n).countP p = if i < n then 1 else 0 := by
  induction l generalizing i n with
  | nil => simp at hi
  | cons y l ih =>
    have hhead := hp 0 y rfl
    cases n with
    | zero => simp
    | succ n =>
      rw [List.take_succ_cons, List.countP_cons]
      cases i with
      | zero =>
        have hrest : (l.take n).countP p = 0 := by
          rw [List.countP_eq_zero]
          intro x hx hpx
          obtain ⟨j, hj⟩ := List.mem_iff_getElem?.mp (List.mem_of_mem_take hx)
          have := (hp (j + 1) x (by rw [List.getElem?_cons_succ, hj])).mp hpx
          omega
        rw [hrest, if_pos (hhead.mpr rfl), if_pos (Nat.succ_pos n)]
      | succ i =>
        have hrest : (l.take n).countP p = if i < n then 1 else 0 := by
          refine ih (fun j x hx => ?_) (by simpa using hi)
          rw [hp (j + 1) x (by rw [List.getElem?_cons_succ, hx])]
          omega
        have hy : p y = false := by
          by_contra hy
          have := hhead.mp (by simpa using hy)
          omega
        rw [hrest, hy]
        simp

theorem countP_slice (hp : ∀ j x, l[j]? = some x → (p x = true ↔ j = i)) (hi : i < l.length) :
    ((l.drop k).take m).countP p = if k ≤ i ∧ i < k + m then 1 else 0 := by
  have hsum : (l.take (k + m)).countP p =
      (l.take k).countP p + ((l.drop k).take m).countP p := by
    rw [List.take_add, List.countP_append]
  rw [countP_take hp hi, countP_take hp hi] at hsum
  split_ifs at hsum ⊢ <;> omega

end Cursor
