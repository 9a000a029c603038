import Mathlib.Data.Option.Basic

/-! Two runs of computations that may fail, compared by what they return. -/
namespace Option.Rel

universe u v

variable {α β : Type u} {α' β' : Type v} {κ ι : Type*} {R : α → α' → Prop} {S : β → β' → Prop}

/-- What both runs go on to do stays related when every step is. -/
theorem bind {x : Option α} {x' : Option α'} {f : α → Option β} {f' : α' → Option β'}
    (h : Option.Rel R x x') (hf : ∀ a a', R a a' → Option.Rel S (f a) (f' a')) :
    Option.Rel S (x >>= f) (x' >>= f') := by
  cases h with
  | none => exact .none
  | some hr => exact hf _ _ hr

/-- The two runs start with the same step. -/
theorem bind_eq {α : Type*} {β β' : Type u} {S : β → β' → Prop} {f : α → Option β}
    {f' : α → Option β'} {x x' : Option α} (h : x' = x) (hf : ∀ a, Option.Rel S (f a) (f' a)) :
    Option.Rel S (x.bind f) (x'.bind f') := by
  subst h
  cases x' with
  | none => exact .none
  | some a => exact hf a

theorem foldlM {f : α → ι → Option α} {f' : α' → ι → Option α'}
    (hf : ∀ a a' i, R a a' → Option.Rel R (f a i) (f' a' i)) {l : List ι} :
    ∀ {a : α} {a' : α'}, R a a' → Option.Rel R (l.foldlM f a) (l.foldlM f' a') := by
  induction l with
  | nil => exact fun h => .some h
  | cons i l ih => exact fun h => (hf _ _ i h).bind fun _ _ h' => ih h'

/-- A result of one run is one of the other. -/
theorem exists_of_some {x : Option α} {x' : Option α'} (h : Option.Rel R x x') {a : α}
    (ha : x = Option.some a) : ∃ a', x' = Option.some a' ∧ R a a' := by
  cases h with
  | none => cases ha
  | some hr =>
    obtain rfl := Option.some.inj ha
    exact ⟨_, rfl, hr⟩

/-- The first parts are related and the second parts the same. -/
inductive Paired (R : α → α' → Prop) : α × κ → α' × κ → Prop
  | mk {a a' k} : R a a' → Paired R (a, k) (a', k)

/-- The first parts are the same and the second parts related. -/
inductive Tagged (R : α → α' → Prop) : κ × α → κ × α' → Prop
  | mk {k a a'} : R a a' → Tagged R (k, a) (k, a')

end Option.Rel
