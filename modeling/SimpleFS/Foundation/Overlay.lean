import Mathlib.Algebra.Order.Group.Nat
import Mathlib.Data.List.Induction
import Mathlib.Order.MinMax

/-! The content that a sequence of writes at given offsets leaves in an unbounded buffer. -/
namespace Overlay

variable {α : Type*}

/-- The buffer `f` with `data` written at `off`. -/
def patch (f : ℕ → α) (off : ℕ) (data : List α) : ℕ → α :=
  fun x => if off ≤ x then data[x - off]?.getD (f x) else f x

/-- The part of `f` of length `len` from `off`. -/
def window (f : ℕ → α) (off len : ℕ) : List α := (List.range len).map fun i => f (off + i)

/-- The list `bytes` with `data` written at `off`, after zeros where it ends before. -/
def overwrite (zero : α) (bytes : List α) (off : ℕ) (data : List α) : List α :=
  bytes.take off ++ List.replicate (off - bytes.length) zero ++ data ++
    bytes.drop (off + data.length)

/-- All the writes, in order, on a buffer of `zero`. -/
def overlay (zero : α) (ws : List (ℕ × List α)) : ℕ → α :=
  ws.foldl (fun f w => patch f w.1 w.2) fun _ => zero

/-- The end of the write that reaches furthest. -/
def extent (ws : List (ℕ × List α)) : ℕ := ws.foldl (fun n w => max n (w.1 + w.2.length)) 0

@[simp] theorem patch_nil (f : ℕ → α) (off : ℕ) : patch f off [] = f := by
  funext x
  simp [patch]

theorem patch_congr {f g : ℕ → α} {off : ℕ} {data : List α} {x : ℕ} (h : f x = g x) :
    patch f off data x = patch g off data x := by
  simp [patch, h]

theorem patch_of_outside (f : ℕ → α) {off : ℕ} {data : List α} {x : ℕ}
    (h : x < off ∨ off + data.length ≤ x) : patch f off data x = f x := by
  unfold patch
  split_ifs with hx
  · rw [List.getElem?_eq_none (by omega), Option.getD_none]
  · rfl

/-- A write can be made in two parts. -/
theorem patch_append (f : ℕ → α) (off : ℕ) (xs ys : List α) :
    patch f off (xs ++ ys) = patch (patch f off xs) (off + xs.length) ys := by
  funext x
  unfold patch
  split_ifs with h₁ h₂ h₂
  · rw [List.getElem?_append_right (by omega), Nat.sub_sub,
      List.getElem?_eq_none (show xs.length ≤ x - off by omega), Option.getD_none]
  · rw [List.getElem?_append_left (by omega)]
  · omega
  · rfl

/-- A write seen from a later origin. -/
theorem patch_add (f : ℕ → α) (n off : ℕ) (data : List α) (x : ℕ) :
    patch f (n + off) data (n + x) = patch (fun y => f (n + y)) off data x := by
  unfold patch
  rw [Nat.add_sub_add_left]
  split_ifs <;> first | rfl | omega

@[simp] theorem length_window (f : ℕ → α) (off len : ℕ) : (window f off len).length = len := by
  simp [window]

@[simp] theorem window_zero (f : ℕ → α) (off : ℕ) : window f off 0 = [] := rfl

theorem window_append (f : ℕ → α) (off m n : ℕ) :
    window f off (m + n) = window f off m ++ window f (off + m) n := by
  simp only [window, List.range_add, List.map_append, List.map_map]
  refine congrArg₂ (· ++ ·) rfl (List.map_congr_left fun i _ => ?_)
  simp [Nat.add_assoc]

theorem window_congr {f g : ℕ → α} {off len : ℕ} (h : ∀ x, off ≤ x → x < off + len → f x = g x) :
    window f off len = window g off len := by
  refine List.map_congr_left fun i hi => ?_
  have := List.mem_range.mp hi
  exact h _ (by omega) (by omega)

theorem window_inj {f g : ℕ → α} {len : ℕ} :
    window f 0 len = window g 0 len ↔ ∀ x < len, f x = g x := by
  unfold window
  rw [List.map_inj_left]
  simp only [List.mem_range, Nat.zero_add]

theorem getD_window (f : ℕ → α) (len : ℕ) (x : ℕ) (a : α) :
    (window f 0 len).getD x a = if x < len then f x else a := by
  unfold window
  rw [List.getD_eq_getElem?_getD, List.getElem?_map]
  split_ifs with h
  · rw [List.getElem?_range h, Option.map_some, Option.getD_some, Nat.zero_add]
  · rw [List.getElem?_eq_none (by rw [List.length_range]; omega), Option.map_none, Option.getD_none]

/-- A write over a buffer `g` that starts with the first `n` elements of `f` is the write over these
elements and zeros exactly when `g` has zeros up to the write. -/
theorem patch_eq_patch_window_iff {f g : ℕ → α} {zero : α} {n off : ℕ} {data : List α}
    (h : ∀ x < n, g x = f x) :
    (∀ x < max n (off + data.length),
        patch g off data x = patch (fun p => (window f 0 n).getD p zero) off data x) ↔
      ∀ x, n ≤ x → x < off → g x = zero := by
  simp only [getD_window]
  constructor
  · intro hp x hn hx
    have heq := hp x (lt_max_of_lt_right (by omega))
    rwa [patch_of_outside _ (Or.inl hx), patch_of_outside _ (Or.inl hx),
      if_neg (Nat.not_lt.mpr hn)] at heq
  · intro hz x hx
    by_cases hin : off ≤ x ∧ x < off + data.length
    · unfold patch
      rw [if_pos hin.1, if_pos hin.1, List.getElem?_eq_getElem (by omega), Option.getD_some,
        Option.getD_some]
    · refine patch_congr ?_
      split_ifs with hn
      · exact h x hn
      · exact hz x (by omega) (by omega)

theorem take_window (f : ℕ → α) (off n k : ℕ) :
    (window f off n).take k = window f off (min k n) := by
  rw [window, ← List.map_take, List.take_range]
  rfl

theorem drop_window (f : ℕ → α) (off n k : ℕ) :
    (window f off n).drop k = window f (off + k) (n - k) := by
  rcases Nat.le_total k n with h | h
  · obtain ⟨m, rfl⟩ := Nat.exists_eq_add_of_le h
    rw [window_append, List.drop_left' (length_window f off k), Nat.add_sub_cancel_left]
  · rw [Nat.sub_eq_zero_of_le h, window_zero, List.drop_eq_nil_iff, length_window]
    exact h

/-- Where the buffer holds nothing but zeros past the first `n`, a write is one over these. -/
theorem window_patch {f : ℕ → α} {zero : α} {n : ℕ} (h : ∀ x, n ≤ x → f x = zero) (off : ℕ)
    (data : List α) : window (patch f off data) 0 (max n (off + data.length)) =
      overwrite zero (window f 0 n) off data := by
  have hbefore : window (patch f off data) 0 off =
      window f 0 (min off n) ++ List.replicate (off - n) zero := by
    have hsplit : off = min off n + (off - n) := by omega
    have hzeros : window f (min off n) (off - n) = List.replicate (off - n) zero := by
      rw [List.eq_replicate_iff, length_window]
      refine ⟨rfl, fun b hb => ?_⟩
      obtain ⟨i, hi, rfl⟩ := List.mem_map.mp hb
      have hi := List.mem_range.mp hi
      exact h _ (by omega)
    have hkeep : window (patch f off data) 0 off = window f 0 off :=
      window_congr fun x _ hx => patch_of_outside f (Or.inl (by omega))
    rw [hkeep, ← hzeros]
    conv_lhs => rw [hsplit]
    rw [window_append, Nat.zero_add]
  have hdata : window (patch f off data) off data.length = data := by
    apply List.ext_getElem
    · exact length_window ..
    · intro i hi hi'
      simp [window, patch, hi']
  have hafter : window (patch f off data) (off + data.length) (n - (off + data.length)) =
      window f (off + data.length) (n - (off + data.length)) :=
    window_congr fun x hx _ => patch_of_outside f (Or.inr hx)
  have hsum : max n (off + data.length) = off + data.length + (n - (off + data.length)) := by omega
  rw [hsum, window_append, window_append, Nat.zero_add, Nat.zero_add, hbefore, hdata, hafter,
    overwrite, take_window, drop_window, length_window, Nat.zero_add]

theorem overlay_snoc (zero : α) (ws : List (ℕ × List α)) (w : ℕ × List α) :
    overlay zero (ws ++ [w]) = patch (overlay zero ws) w.1 w.2 := by
  simp [overlay]

theorem extent_snoc (ws : List (ℕ × List α)) (w : ℕ × List α) :
    extent (ws ++ [w]) = max (extent ws) (w.1 + w.2.length) := by
  simp [extent]

/-- Past the furthest write the buffer is as it was. -/
theorem overlay_of_extent_le (zero : α) (ws : List (ℕ × List α)) {x : ℕ} (h : extent ws ≤ x) :
    overlay zero ws x = zero := by
  induction ws using List.reverseRecOn with
  | nil => rfl
  | append_singleton ws w ih =>
    rw [extent_snoc] at h
    rw [overlay_snoc, patch_of_outside _ (Or.inr (le_trans (le_max_right _ _) h)),
      ih (le_trans (le_max_left _ _) h)]

end Overlay
