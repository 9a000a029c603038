import Mathlib.Data.List.Nodup
import Mathlib.Logic.Function.Basic

/-! Cells held by owners, every cell by one owner at most and at one place of its list. -/

variable {ι κ : Type*}

/-- No cell is held twice, by one owner or by two. -/
structure Exclusive (held : ι → List κ) : Prop where
  nodup : ∀ i, (held i).Nodup
  disjoint : ∀ i j, i ≠ j → ∀ x ∈ held i, x ∉ held j

namespace Exclusive

variable {held held' : ι → List κ}

theorem owner_unique (h : Exclusive held) {i j : ι} {x : κ} (hi : x ∈ held i) (hj : x ∈ held j) :
    i = j :=
  by_contra fun hne => h.disjoint i j hne x hi hj

/-- Owners may give up cells. -/
theorem mono (h : Exclusive held) (hnodup : ∀ i, (held' i).Nodup)
    (hsub : ∀ i, held' i ⊆ held i) : Exclusive held' where
  nodup := hnodup
  disjoint i j hij x hx hy := h.disjoint i j hij x (hsub i hx) (hsub j hy)

/-- Some owners get new lists, made of cells that these owners or nobody held. -/
theorem redistribute (h : Exclusive held) (changed : ι → Prop)
    (hsame : ∀ i, ¬ changed i → held' i = held i)
    (hfrom : ∀ i, changed i → ∀ x ∈ held' i, (∃ r, changed r ∧ x ∈ held r) ∨ ∀ j, x ∉ held j)
    (hnodup : ∀ i, changed i → (held' i).Nodup)
    (hapart : ∀ i j, changed i → changed j → i ≠ j → ∀ x ∈ held' i, x ∉ held' j) :
    Exclusive held' where
  nodup i := by
    by_cases hi : changed i
    · exact hnodup i hi
    · rw [hsame i hi]
      exact h.nodup i
  disjoint i j hij x hx hy := by
    have hcross : ∀ a b, changed a → ¬ changed b → x ∈ held' a → x ∉ held' b := by
      intro a b ha hb hxa hxb
      rw [hsame b hb] at hxb
      rcases hfrom a ha x hxa with ⟨r, hr, hxr⟩ | hnone
      · exact hb (h.owner_unique hxr hxb ▸ hr)
      · exact hnone b hxb
    by_cases hi : changed i <;> by_cases hj : changed j
    · exact hapart i j hi hj hij x hx hy
    · exact hcross i j hi hj hx hy
    · exact hcross j i hj hi hy hx
    · rw [hsame i hi] at hx
      rw [hsame j hj] at hy
      exact h.disjoint i j hij x hx hy

/-- Two owners share out anew what they hold together. -/
theorem transfer [DecidableEq ι] (h : Exclusive held) {i j : ι} (hij : i ≠ j) {l l' : List κ}
    (hnodup : (l ++ l').Nodup) (hsub : l ++ l' ⊆ held i ++ held j) :
    Exclusive (Function.update (Function.update held i l) j l') := by
  have hi : Function.update (Function.update held i l) j l' i = l := by
    rw [Function.update_of_ne hij, Function.update_self]
  have hj : Function.update (Function.update held i l) j l' j = l' := Function.update_self ..
  obtain ⟨hl, hl', hapart⟩ := List.nodup_append.mp hnodup
  refine h.redistribute (fun r => r = i ∨ r = j) ?_ ?_ ?_ ?_
  · intro r hr
    rw [not_or] at hr
    rw [Function.update_of_ne hr.2, Function.update_of_ne hr.1]
  · intro r hr x hx
    have hmem : x ∈ held i ++ held j := by
      apply hsub
      rw [List.mem_append]
      rcases hr with rfl | rfl
      · exact Or.inl (hi ▸ hx)
      · exact Or.inr (hj ▸ hx)
    rcases List.mem_append.mp hmem with hx | hx
    · exact Or.inl ⟨i, Or.inl rfl, hx⟩
    · exact Or.inl ⟨j, Or.inr rfl, hx⟩
  · rintro r (rfl | rfl)
    · exact hi.symm ▸ hl
    · exact hj.symm ▸ hl'
  · rintro r q (rfl | rfl) (rfl | rfl) hne x hx hy
    · exact hne rfl
    · rw [hi] at hx
      rw [hj] at hy
      exact hapart x hx x hy rfl
    · rw [hj] at hx
      rw [hi] at hy
      exact hapart x hy x hx rfl
    · exact hne rfl

end Exclusive

/-- The owners `changed` gave up the cells `freed` and got the cells `new`. -/
structure Exchange (changed : ι → Prop) (held held' : ι → List κ) (new freed : List κ) : Prop where
  same : ∀ i, ¬ changed i → held' i = held i
  mem : ∀ x, (∃ i, changed i ∧ x ∈ held' i) ↔
    ((∃ i, changed i ∧ x ∈ held i) ∧ x ∉ freed) ∨ x ∈ new
  freed : ∀ x ∈ freed, ∃ i, changed i ∧ x ∈ held i

/-- The cells in use are those of `base` and, apart from these, what the owners `inside` hold. -/
structure Accounted (inside : ι → Prop) (base used : κ → Prop) (held : ι → List κ) : Prop where
  used_iff : ∀ x, used x ↔ base x ∨ ∃ i, inside i ∧ x ∈ held i
  apart : ∀ x, base x → ∀ i, inside i → x ∉ held i

/-- An exchange among the owners inside leaves no cell in use that nobody holds. -/
theorem Accounted.exchange {inside changed : ι → Prop} {base used used' : κ → Prop}
    {held held' : ι → List κ} {new freed : List κ} (h : Accounted inside base used held)
    (hx : Exclusive held) (he : Exchange changed held held' new freed)
    (hin : ∀ i, changed i → inside i) (hfresh : ∀ x ∈ new, ¬ used x)
    (hused : ∀ x, used' x ↔ x ∈ new ∨ used x ∧ x ∉ freed) :
    Accounted inside base used' held' where
  used_iff x := by
    rw [hused]
    constructor
    · rintro (hnew | ⟨hu, hkeep⟩)
      · obtain ⟨i, hi, hmem⟩ := (he.mem x).mpr (Or.inr hnew)
        exact Or.inr ⟨i, hin i hi, hmem⟩
      · rcases (h.used_iff x).mp hu with hbase | ⟨i, hi, hmem⟩
        · exact Or.inl hbase
        · by_cases hc : changed i
          · obtain ⟨j, hj, hmem'⟩ := (he.mem x).mpr (Or.inl ⟨⟨i, hc, hmem⟩, hkeep⟩)
            exact Or.inr ⟨j, hin j hj, hmem'⟩
          · exact Or.inr ⟨i, hi, he.same i hc ▸ hmem⟩
    · rintro (hbase | ⟨i, hi, hmem⟩)
      · refine Or.inr ⟨(h.used_iff x).mpr (Or.inl hbase), fun hfreed => ?_⟩
        obtain ⟨j, hj, hmem⟩ := he.freed x hfreed
        exact h.apart x hbase j (hin j hj) hmem
      · by_cases hc : changed i
        · rcases (he.mem x).mp ⟨i, hc, hmem⟩ with ⟨⟨j, hj, hold⟩, hkeep⟩ | hnew
          · exact Or.inr ⟨(h.used_iff x).mpr (Or.inr ⟨j, hin j hj, hold⟩), hkeep⟩
          · exact Or.inl hnew
        · rw [he.same i hc] at hmem
          refine Or.inr ⟨(h.used_iff x).mpr (Or.inr ⟨i, hi, hmem⟩), fun hfreed => ?_⟩
          obtain ⟨j, hj, hold⟩ := he.freed x hfreed
          exact hc (hx.owner_unique hmem hold ▸ hj)
  apart x hbase i hi hmem := by
    by_cases hc : changed i
    · rcases (he.mem x).mp ⟨i, hc, hmem⟩ with ⟨⟨j, hj, hold⟩, -⟩ | hnew
      · exact h.apart x hbase j (hin j hj) hold
      · exact hfresh x hnew ((h.used_iff x).mpr (Or.inl hbase))
    · exact h.apart x hbase i hi (he.same i hc ▸ hmem)
