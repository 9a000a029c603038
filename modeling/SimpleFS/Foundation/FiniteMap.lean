import Mathlib.Data.List.Nodup
import Mathlib.Logic.Function.Basic
import Mathlib.Tactic.ByContra

/-! Finite maps kept as lists of items, one for every key in use, in any order. -/
namespace FiniteMap

variable {α κ β : Type*} {key : α → Option κ} {value : α → β} {l l' : List α} {m : κ → Option β}
  {k : κ}

/-- The items `l` make the map `m`: every item has a key that no other has, and every key of the map
has an item. -/
structure Lists (key : α → Option κ) (value : α → β) (l : List α) (m : κ → Option β) : Prop where
  sound : ∀ x ∈ l, ∃ k, key x = some k ∧ m k = some (value x)
  nodup : (l.map key).Nodup
  total : ∀ k, m k ≠ none → ∃ x ∈ l, key x = some k

namespace Lists

theorem perm (h : Lists key value l m) (hp : l'.Perm l) : Lists key value l' m where
  sound x hx := h.sound x (hp.mem_iff.mp hx)
  nodup := (hp.map key).nodup_iff.mpr h.nodup
  total k hk := by
    obtain ⟨x, hx, hkey⟩ := h.total k hk
    exact ⟨x, hp.mem_iff.mpr hx, hkey⟩

theorem eq_some_iff (h : Lists key value l m) {v : β} :
    m k = some v ↔ ∃ x ∈ l, key x = some k ∧ value x = v := by
  constructor
  · intro hv
    obtain ⟨x, hx, hkey⟩ := h.total k (by simp [hv])
    obtain ⟨k', hkey', hv'⟩ := h.sound x hx
    obtain rfl : k' = k := Option.some.inj (hkey'.symm.trans hkey)
    exact ⟨x, hx, hkey, Option.some.inj (hv'.symm.trans hv)⟩
  · rintro ⟨x, hx, hkey, rfl⟩
    obtain ⟨k', hkey', hv⟩ := h.sound x hx
    obtain rfl : k' = k := Option.some.inj (hkey'.symm.trans hkey)
    exact hv

theorem eq_none_iff (h : Lists key value l m) : m k = none ↔ ∀ x ∈ l, key x ≠ some k := by
  rw [← not_iff_not, ← ne_eq, Option.ne_none_iff_exists']
  simp only [h.eq_some_iff, not_forall, ne_eq, not_not, exists_prop]
  constructor
  · rintro ⟨v, x, hx, hkey, -⟩
    exact ⟨x, hx, hkey⟩
  · rintro ⟨x, hx, hkey⟩
    exact ⟨_, x, hx, hkey, rfl⟩

variable [DecidableEq κ]

/-- A search for the key finds its value. -/
theorem find?_map (h : Lists key value l m) (k : κ) :
    (l.find? fun x => key x == some k).map value = m k := by
  cases hfound : l.find? fun x => key x == some k with
  | none =>
    refine (h.eq_none_iff.mpr fun x hx hkey => ?_).symm
    simpa [hkey] using List.find?_eq_none.mp hfound x hx
  | some x =>
    refine (h.eq_some_iff.mpr ⟨x, List.mem_of_find?_eq_some hfound, ?_, rfl⟩).symm
    simpa using List.find?_some hfound

/-- Items with different keys make the map of their searches. -/
theorem of_nodup (hkey : ∀ x ∈ l, key x ≠ none) (hl : (l.map key).Nodup) :
    Lists key value l fun k => (l.find? fun x => key x == some k).map value where
  sound x hx := by
    obtain ⟨k, hk⟩ := Option.ne_none_iff_exists'.mp (hkey x hx)
    have hsome : (l.find? fun x => key x == some k).isSome = true :=
      List.find?_isSome.mpr ⟨x, hx, by simp [hk]⟩
    obtain ⟨y, hy⟩ := Option.isSome_iff_exists.mp hsome
    have hyk : key y = some k := by simpa using List.find?_some hy
    have hxy : y = x :=
      List.inj_on_of_nodup_map hl (List.mem_of_find?_eq_some hy) hx (hyk.trans hk.symm)
    exact ⟨k, hk, by rw [hy, hxy, Option.map_some]⟩
  nodup := hl
  total k hk := by
    obtain ⟨x, hx⟩ := Option.ne_none_iff_exists'.mp hk
    obtain ⟨y, hy, -⟩ := Option.map_eq_some_iff.mp hx
    exact ⟨y, List.mem_of_find?_eq_some hy, by simpa using List.find?_some hy⟩

/-- An item with a new key extends the map. -/
theorem cons (h : Lists key value l m) {x : α} (hkey : key x = some k) (hk : m k = none) :
    Lists key value (x :: l) (Function.update m k (some (value x))) where
  sound y hy := by
    rcases List.mem_cons.mp hy with rfl | hy
    · exact ⟨k, hkey, Function.update_self _ _ _⟩
    · obtain ⟨k', hkey', hv⟩ := h.sound y hy
      have hne : k' ≠ k := by
        rintro rfl
        simp [hk] at hv
      exact ⟨k', hkey', by rw [Function.update_of_ne hne, hv]⟩
  nodup := by
    refine List.nodup_cons.mpr ⟨fun hmem => ?_, h.nodup⟩
    obtain ⟨y, hy, heq⟩ := List.mem_map.mp hmem
    exact h.eq_none_iff.mp hk y hy (heq.trans hkey)
  total k' hk' := by
    by_cases heq : k' = k
    · exact ⟨x, List.mem_cons_self, by rw [heq, hkey]⟩
    · rw [Function.update_of_ne heq] at hk'
      obtain ⟨y, hy, hkey'⟩ := h.total k' hk'
      exact ⟨y, List.mem_cons_of_mem x hy, hkey'⟩

/-- Taking out the first item with the key takes the key out of the map. -/
theorem eraseP (h : Lists key value l m) (k : κ) :
    Lists key value (l.eraseP fun x => key x == some k) (Function.update m k none) where
  sound x hx := by
    obtain ⟨k', hkey, hv⟩ := h.sound x (List.mem_of_mem_eraseP hx)
    have hmap : (l.eraseP fun x => key x == some k).map key = (l.map key).erase (some k) := by
      rw [List.erase_eq_eraseP', List.eraseP_map]
      rfl
    have hmem : key x ∈ (l.map key).erase (some k) := hmap ▸ List.mem_map_of_mem hx
    have hne : k' ≠ k := by
      rintro rfl
      exact (h.nodup.mem_erase_iff.mp hmem).1 hkey
    exact ⟨k', hkey, by rw [Function.update_of_ne hne, hv]⟩
  nodup := (List.eraseP_sublist.map key).nodup h.nodup
  total k' hk' := by
    have hne : k' ≠ k := by
      rintro rfl
      simp at hk'
    rw [Function.update_of_ne hne] at hk'
    obtain ⟨x, hx, hkey⟩ := h.total k' hk'
    exact ⟨x, (List.mem_eraseP_of_neg (by simpa [hkey] using hne)).mpr hx, hkey⟩

end Lists

section Places

variable {ι : Type*} {held : ι → Option (κ × β)} {i : ι} {v : β}

/-- The places hold the map: a place in use has a key with its value, and every key of the map has
one place. -/
structure Indexed (held : ι → Option (κ × β)) (m : κ → Option β) : Prop where
  sound : ∀ i k v, held i = some (k, v) → m k = some v
  total : ∀ k v, m k = some v → ∃ i, held i = some (k, v)
  unique : ∀ i j k v w, held i = some (k, v) → held j = some (k, w) → i = j

namespace Indexed

theorem empty : Indexed (fun _ : ι => (none : Option (κ × β))) fun _ => none where
  sound _ _ _ h := absurd h.symm (Option.some_ne_none _)
  total _ _ h := absurd h.symm (Option.some_ne_none _)
  unique _ _ _ _ _ h := absurd h.symm (Option.some_ne_none _)

theorem eq_none_iff (h : Indexed held m) : m k = none ↔ ∀ i v, held i ≠ some (k, v) := by
  constructor
  · intro hk i v hi
    rw [h.sound i k v hi] at hk
    cases hk
  · intro hall
    by_contra hk
    obtain ⟨v, hv⟩ := Option.ne_none_iff_exists'.mp hk
    obtain ⟨i, hi⟩ := h.total k v hv
    exact hall i v hi

variable [DecidableEq ι] [DecidableEq κ]

/-- A value is put where its key has its place, or a new key where nothing is. -/
theorem put (h : Indexed held m)
    (hi : held i = none ∧ m k = none ∨ ∃ w, held i = some (k, w)) :
    Indexed (Function.update held i (some (k, v))) (Function.update m k (some v)) := by
  have hother : ∀ j w, j ≠ i → held j ≠ some (k, w) := by
    intro j w hne hj
    rcases hi with ⟨-, hk⟩ | ⟨w', hw'⟩
    · exact h.eq_none_iff.mp hk j w hj
    · exact hne (h.unique j i k w w' hj hw')
  constructor
  · intro j k' v' hj
    by_cases hji : j = i
    · subst hji
      rw [Function.update_self] at hj
      obtain ⟨rfl, rfl⟩ := Prod.mk.inj (Option.some.inj hj)
      rw [Function.update_self]
    · rw [Function.update_of_ne hji] at hj
      have hk' : k' ≠ k := fun heq => hother j v' hji (heq ▸ hj)
      rw [Function.update_of_ne hk']
      exact h.sound j k' v' hj
  · intro k' v' hv'
    by_cases hk' : k' = k
    · subst hk'
      rw [Function.update_self] at hv'
      exact ⟨i, by rw [Function.update_self, Option.some.inj hv']⟩
    · rw [Function.update_of_ne hk'] at hv'
      obtain ⟨j, hj⟩ := h.total k' v' hv'
      have hji : j ≠ i := by
        rintro rfl
        rcases hi with ⟨hnone, -⟩ | ⟨w, hw⟩
        · rw [hnone] at hj
          cases hj
        · rw [hw] at hj
          exact hk' (Prod.mk.inj (Option.some.inj hj)).1.symm
      exact ⟨j, by rw [Function.update_of_ne hji, hj]⟩
  · intro j j' k' v' w' hj hj'
    by_cases hji : j = i
    · subst hji
      rw [Function.update_self] at hj
      obtain ⟨rfl, rfl⟩ := Prod.mk.inj (Option.some.inj hj)
      by_contra hne
      rw [Function.update_of_ne (Ne.symm hne)] at hj'
      exact hother j' w' (Ne.symm hne) hj'
    · rw [Function.update_of_ne hji] at hj
      by_cases hji' : j' = i
      · subst hji'
        rw [Function.update_self] at hj'
        obtain ⟨rfl, rfl⟩ := Prod.mk.inj (Option.some.inj hj')
        exact absurd hj (hother j v' hji)
      · rw [Function.update_of_ne hji'] at hj'
        exact h.unique j j' k' v' w' hj hj'

/-- A place that is emptied takes its key out of the map. -/
theorem clear (h : Indexed held m) {w : β} (hi : held i = some (k, w)) :
    Indexed (Function.update held i none) (Function.update m k none) := by
  constructor
  · intro j k' v' hj
    have hji : j ≠ i := by
      rintro rfl
      rw [Function.update_self] at hj
      cases hj
    rw [Function.update_of_ne hji] at hj
    have hk' : k' ≠ k := fun heq => hji (h.unique j i k v' w (heq ▸ hj) hi)
    rw [Function.update_of_ne hk']
    exact h.sound j k' v' hj
  · intro k' v' hv'
    have hk' : k' ≠ k := by
      rintro rfl
      rw [Function.update_self] at hv'
      cases hv'
    rw [Function.update_of_ne hk'] at hv'
    obtain ⟨j, hj⟩ := h.total k' v' hv'
    have hji : j ≠ i := by
      rintro rfl
      rw [hi] at hj
      exact hk' (Prod.mk.inj (Option.some.inj hj)).1.symm
    exact ⟨j, by rw [Function.update_of_ne hji, hj]⟩
  · intro j j' k' v' w' hj hj'
    have hne : ∀ l u, Function.update held i none l = some (k', u) → l ≠ i := by
      rintro l u hl rfl
      rw [Function.update_self] at hl
      cases hl
    rw [Function.update_of_ne (hne j v' hj)] at hj
    rw [Function.update_of_ne (hne j' w' hj')] at hj'
    exact h.unique j j' k' v' w' hj hj'

end Indexed

end Places

end FiniteMap
