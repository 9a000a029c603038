import Mathlib.Data.List.Induction
import Mathlib.Data.Nat.Notation
import Mathlib.Logic.Function.Basic

/-! Stores of numbered nodes: files that hold a list of bytes, and directories that give nodes their
names. -/
namespace NodeStore
open Function

variable {α ν β : Type*}

inductive Node (α ν β : Type*)
  | file (attr : α) (bytes : List β)
  | dir (attr : α) (names : ν → Option ℕ)

/-- The nodes by their numbers. -/
abbrev Store (α ν β : Type*) := ℕ → Option (Node α ν β)

namespace Node

def attr : Node α ν β → α
  | file a _ => a
  | dir a _ => a

def isDir : Node α ν β → Bool
  | file _ _ => false
  | dir _ _ => true

def setAttr (a : α) : Node α ν β → Node α ν β
  | file _ bytes => file a bytes
  | dir _ names => dir a names

end Node

namespace Store

/-- The node under the name `s` in directory `p`. -/
def child (t : Store α ν β) (p : ℕ) (s : ν) : Option ℕ :=
  match t p with
  | some (.dir _ names) => names s
  | _ => none

/-- The node that a path leads to. -/
def walk (t : Store α ν β) (p : ℕ) (path : List ν) : Option ℕ := path.foldlM t.child p

section Walk

variable {t t' : Store α ν β} {p q r : ℕ} {a : α} {names : ν → Option ℕ} {s c : ν} {path : List ν}

theorem walk_nil : t.walk r [] = some q ↔ r = q := by
  simp [walk]

theorem walk_concat : t.walk r (path ++ [c]) = some q ↔
    ∃ m, t.walk r path = some m ∧ t.child m c = some q := by
  unfold walk
  rw [List.foldlM_append]
  simp [Option.bind_eq_some_iff]

theorem child_eq_none (h : t p = none) : t.child p c = none := by
  unfold child
  rw [h]

theorem child_of_dir (h : t p = some (.dir a names)) : t.child p c = names c := by
  unfold child
  rw [h]

theorem child_congr (h : t' p = t p) : t'.child p c = t.child p c := by
  unfold child
  rw [h]

/-- Only a directory has nodes under it. -/
theorem exists_dir_of_child (h : t.child p c = some q) :
    ∃ a names, t p = some (.dir a names) ∧ names c = some q := by
  unfold child at h
  split at h
  · exact ⟨_, _, ‹_›, h⟩
  · exact absurd h.symm (Option.some_ne_none _)

/-- Path `path` ends with the name `s` in directory `p`. -/
def Ends (t : Store α ν β) (r p : ℕ) (s : ν) (path : List ν) : Prop :=
  ∃ first, path = first ++ [s] ∧ t.walk r first = some p

theorem ends_concat : t.Ends r p s (path ++ [c]) ↔ c = s ∧ t.walk r path = some p := by
  constructor
  · intro h
    obtain ⟨first, heq, hwalk⟩ := h
    obtain ⟨rfl, hc⟩ := List.append_inj' heq rfl
    exact ⟨List.singleton_inj.mp hc, hwalk⟩
  · intro h
    exact ⟨path, by rw [h.1], h.2⟩

theorem not_ends_nil : ¬ t.Ends r p s [] := by
  intro h
  obtain ⟨first, heq, -⟩ := h
  simp at heq

theorem Ends.walk (h : t.Ends r p s path) : t.walk r path = t.child p s := by
  obtain ⟨first, rfl, hwalk⟩ := h
  unfold Store.walk at hwalk ⊢
  rw [List.foldlM_append, hwalk]
  simp

end Walk

variable [DecidableEq ν]

/-- Directory `p` with `names` has the new node `n` under the name `s`. -/
def link (t : Store α ν β) (p : ℕ) (a : α) (names : ν → Option ℕ) (s : ν) (n : ℕ)
    (node : Node α ν β) : Store α ν β :=
  update (update t n (some node)) p (some (.dir a (update names s (some n))))

/-- Directory `p` with `names` has no node any more under the name `s`, and node `n` is gone. -/
def unlink (t : Store α ν β) (p : ℕ) (a : α) (names : ν → Option ℕ) (s : ν) (n : ℕ) :
    Store α ν β :=
  update (update t n none) p (some (.dir a (update names s none)))

section Changes

variable {t : Store α ν β} {p q r m n : ℕ} {a : α} {names : ν → Option ℕ} {s c : ν}
  {node : Node α ν β} {path : List ν}

theorem link_self : (t.link p a names s n node) p = some (.dir a (update names s (some n))) :=
  update_self ..

theorem link_of_ne (hp : m ≠ p) (hn : m ≠ n) : (t.link p a names s n node) m = t m := by
  unfold link
  rw [update_of_ne hp, update_of_ne hn]

theorem unlink_self : (t.unlink p a names s n) p = some (.dir a (update names s none)) :=
  update_self ..

theorem unlink_gone (hpn : p ≠ n) : (t.unlink p a names s n) n = none := by
  unfold unlink
  rw [update_of_ne hpn.symm, update_self]

theorem unlink_of_ne (hp : m ≠ p) (hn : m ≠ n) : (t.unlink p a names s n) m = t m := by
  unfold unlink
  rw [update_of_ne hp, update_of_ne hn]

theorem child_link (hp : t p = some (.dir a names)) (hs : names s = none) (hn : t n = none)
    (hc : m = n → (t.link p a names s n node).child n c = none) :
    (t.link p a names s n node).child m c = some q ↔
      t.child m c = some q ∨ q = n ∧ m = p ∧ c = s := by
  by_cases hmp : m = p
  · rw [hmp, child_of_dir link_self, child_of_dir hp]
    by_cases hcs : c = s
    · rw [hcs, update_self, hs]
      simp [eq_comm]
    · rw [update_of_ne hcs]
      simp [hcs]
  · by_cases hmn : m = n
    · rw [hmn, hc hmn, child_eq_none hn]
      simp [hmn ▸ hmp]
    · rw [child_congr (link_of_ne hmp hmn)]
      simp [hmp]

theorem child_unlink (hp : t p = some (.dir a names)) (hpn : p ≠ n)
    (hc : m = n → t.child n c = none) :
    (t.unlink p a names s n).child m c = some q ↔ t.child m c = some q ∧ ¬ (m = p ∧ c = s) := by
  by_cases hmp : m = p
  · rw [hmp, child_of_dir unlink_self, child_of_dir hp]
    by_cases hcs : c = s
    · rw [hcs, update_self]
      simp
    · rw [update_of_ne hcs]
      simp [hcs]
  · by_cases hmn : m = n
    · rw [hmn, child_eq_none (unlink_gone hpn), hc hmn]
      simp
    · rw [child_congr (unlink_of_ne hmp hmn)]
      simp [hmp]

/-- The paths to the nodes when there is one name more. The new node has nothing under the names of the
path. -/
theorem walk_link (hp : t p = some (.dir a names)) (hs : names s = none) (hn : t n = none)
    (hnode : ∀ c ∈ path, (t.link p a names s n node).child n c = none) :
    (t.link p a names s n node).walk r path = some q ↔
      t.walk r path = some q ∨ q = n ∧ t.Ends r p s path := by
  induction path using List.reverseRecOn generalizing q with
  | nil => simp [walk_nil, not_ends_nil]
  | append_singleton path c ih =>
    have hpath := fun {m : ℕ} => @ih m fun x hx => hnode x (List.mem_append_left _ hx)
    have hc := hnode c (by simp)
    rw [walk_concat, walk_concat, ends_concat]
    constructor
    · intro h
      obtain ⟨m, hm, hq⟩ := h
      rcases hpath.mp hm with hm | ⟨hmn, -⟩
      · rcases (child_link hp hs hn fun _ => hc).mp hq with hq | ⟨hqn, hmp, hcs⟩
        · exact Or.inl ⟨m, hm, hq⟩
        · exact Or.inr ⟨hqn, hcs, hmp ▸ hm⟩
      · rw [hmn, hc] at hq
        exact absurd hq.symm (Option.some_ne_none _)
    · intro h
      rcases h with ⟨m, hm, hq⟩ | ⟨hqn, hcs, hm⟩
      · exact ⟨m, hpath.mpr (Or.inl hm), (child_link hp hs hn fun _ => hc).mpr (Or.inl hq)⟩
      · exact ⟨p, hpath.mpr (Or.inl hm),
          (child_link hp hs hn fun _ => hc).mpr (Or.inr ⟨hqn, rfl, hcs⟩)⟩

/-- The paths to the nodes when there is one name less. The lost node had nothing under the names of
the path. -/
theorem walk_unlink (hp : t p = some (.dir a names)) (hs : names s = some n) (hpn : p ≠ n)
    (hnode : ∀ c ∈ path, t.child n c = none) :
    (t.unlink p a names s n).walk r path = some q ↔
      t.walk r path = some q ∧ ¬ t.Ends r p s path := by
  induction path using List.reverseRecOn generalizing q with
  | nil => simp [walk_nil, not_ends_nil]
  | append_singleton path c ih =>
    have hpath := fun {m : ℕ} => @ih m fun x hx => hnode x (List.mem_append_left _ hx)
    have hc := hnode c (by simp)
    rw [walk_concat, walk_concat, ends_concat]
    constructor
    · intro h
      obtain ⟨m, hm, hq⟩ := h
      obtain ⟨hq, hnot⟩ := (child_unlink hp hpn fun _ => hc).mp hq
      have hwalk := (hpath.mp hm).1
      refine ⟨⟨m, hwalk, hq⟩, fun hends => hnot ⟨?_, hends.1⟩⟩
      exact Option.some.inj (hwalk.symm.trans hends.2)
    · intro h
      obtain ⟨⟨m, hm, hq⟩, hnot⟩ := h
      have hends : ¬ t.Ends r p s path := by
        intro hends
        have hmn := hends.walk
        rw [hm, child_of_dir hp, hs] at hmn
        rw [Option.some.inj hmn, hc] at hq
        exact Option.some_ne_none _ hq.symm
      refine ⟨m, hpath.mpr ⟨hm, hends⟩, (child_unlink hp hpn fun _ => hc).mpr ⟨hq, ?_⟩⟩
      exact fun heq => hnot ⟨heq.2, heq.1 ▸ hm⟩

end Changes

end Store

end NodeStore
