import Mathlib.Data.List.Nodup

/-! Singly linked chains: cells reached from a first one through a successor function, up to a
cell that marks the end. -/

variable {κ : Type*}

/-- The cells from `a` on, in order, up to `stop`. A chain that has such a list ends in `stop`. -/
inductive Chain (next : κ → κ) (stop : κ) : κ → List κ → Prop
  | nil : Chain next stop stop []
  | cons {a l} : a ≠ stop → Chain next stop (next a) l → Chain next stop a (a :: l)

namespace Chain

variable {next next' : κ → κ} {stop a b : κ} {l l' : List κ}

theorem unique (h : Chain next stop a l) (h' : Chain next stop a l') : l = l' := by
  induction h generalizing l' with
  | nil =>
    cases h' with
    | nil => rfl
    | cons hne _ => exact absurd rfl hne
  | cons hne _ ih =>
    cases h' with
    | nil => exact absurd rfl hne
    | cons _ h' => rw [ih h']

theorem stop_not_mem (h : Chain next stop a l) : stop ∉ l := by
  induction h with
  | nil => simp
  | cons hne _ ih =>
    rw [List.mem_cons, not_or]
    exact ⟨Ne.symm hne, ih⟩

theorem eq_nil (h : Chain next stop stop l) : l = [] := h.unique .nil

theorem eq_cons (h : Chain next stop a l) (ha : a ≠ stop) :
    ∃ rest, l = a :: rest ∧ Chain next stop (next a) rest := by
  cases h with
  | nil => exact absurd rfl ha
  | cons _ h => exact ⟨_, rfl, h⟩

theorem eq_stop_iff (h : Chain next stop a l) : a = stop ↔ l = [] := by
  cases h with
  | nil => simp
  | cons hne _ => simp [hne]

theorem head_mem (h : Chain next stop a l) (ha : a ≠ stop) : a ∈ l := by
  obtain ⟨rest, rfl, _⟩ := h.eq_cons ha
  exact List.mem_cons_self

/-- A chain continues from each of its cells. -/
theorem split {pre post : List κ} (h : Chain next stop a (pre ++ b :: post)) :
    Chain next stop b (b :: post) := by
  induction pre generalizing a with
  | nil =>
    cases h with
    | cons hne h => exact .cons hne h
  | cons x pre ih =>
    cases h with
    | cons _ h => exact ih h

theorem of_mem (h : Chain next stop a l) (hb : b ∈ l) :
    ∃ pre post, l = pre ++ b :: post ∧ Chain next stop (next b) post := by
  obtain ⟨pre, post, rfl⟩ := List.append_of_mem hb
  obtain ⟨_, heq, hnext⟩ := h.split.eq_cons fun hs => h.stop_not_mem (hs ▸ hb)
  cases heq
  exact ⟨pre, post, rfl, hnext⟩

/-- A chain that ends passes no cell twice. -/
theorem nodup (h : Chain next stop a l) : l.Nodup := by
  induction h with
  | nil => exact List.nodup_nil
  | @cons a l hne h ih =>
    refine List.nodup_cons.mpr ⟨fun hmem => ?_, ih⟩
    obtain ⟨pre, post, rfl, hnext⟩ := h.of_mem hmem
    have hlen := congrArg List.length (hnext.unique h)
    simp only [List.length_append, List.length_cons] at hlen
    omega

/-- A chain depends on the successors of its own cells. -/
theorem congr (h : Chain next stop a l) (hs : ∀ x ∈ l, next' x = next x) :
    Chain next' stop a l := by
  induction h with
  | nil => exact .nil
  | @cons a l hne _ ih =>
    refine .cons hne ?_
    rw [hs a List.mem_cons_self]
    exact ih fun x hx => hs x (List.mem_cons_of_mem _ hx)

/-- A cell of the chain is linked to another chain. -/
theorem relink {pre post post' : List κ} (h : Chain next stop a (pre ++ b :: post))
    (hpre : ∀ x ∈ pre, next' x = next x) (hb : Chain next' stop (next' b) post') :
    Chain next' stop a (pre ++ b :: post') := by
  induction pre generalizing a with
  | nil =>
    cases h with
    | cons hne _ => exact .cons hne hb
  | cons x pre ih =>
    cases h with
    | cons hne h =>
      refine .cons hne ?_
      rw [hpre x List.mem_cons_self]
      exact ih h fun y hy => hpre y (List.mem_cons_of_mem _ hy)

/-- Ending a chain at one of its cells, or at a cell elsewhere, leaves a chain. -/
theorem cut (h : Chain next stop a l) (hb : next' b = stop)
    (hs : ∀ x, x ≠ b → next' x = next x) : ∃ l', Chain next' stop a l' := by
  by_cases hmem : b ∈ l
  · obtain ⟨pre, post, rfl⟩ := List.append_of_mem hmem
    have hpre : ∀ x ∈ pre, x ≠ b := fun x hx heq =>
      (List.nodup_append.mp h.nodup).2.2 x hx b List.mem_cons_self heq
    have hend : Chain next' stop (next' b) [] := by
      rw [hb]
      exact .nil
    exact ⟨_, h.relink (fun x hx => hs x (hpre x hx)) hend⟩
  · exact ⟨l, h.congr fun x hx => hs x fun heq => hmem (heq ▸ hx)⟩

/-- What holds of the first cell and of every successor holds of all cells. -/
theorem forall_mem {p : κ → Prop} (h : Chain next stop a l) (ha : p a) (hp : ∀ x, p (next x)) :
    ∀ x ∈ l, p x := by
  induction h with
  | nil => simp
  | cons _ _ ih => exact List.forall_mem_cons.mpr ⟨ha, ih (hp _)⟩

end Chain
