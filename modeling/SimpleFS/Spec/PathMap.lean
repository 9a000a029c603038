import SimpleFS.Requests.Runs
import SimpleFS.Spec.FileStore

/-! What the answers say about paths: a map from the paths without dots to the nodes. -/
namespace SimpleFS
open NodeStore Function

/-- The nodes by the components of their paths. -/
abbrev PathMap := List String → Option ℕ

/-- No component is one of the dots. -/
def PlainPath (path : List String) : Prop := ∀ c ∈ path, c ≠ "." ∧ c ≠ ".."

namespace PathMap

variable {m : PathMap} {p n : ℕ} {s : String} {path : List String}

/-- Path `path` ends with the name `s` in directory `p`. -/
def Ends (m : PathMap) (p : ℕ) (s : String) (path : List String) : Prop :=
  path.getLast? = some s ∧ m path.dropLast = some p

instance : Decidable (m.Ends p s path) := inferInstanceAs (Decidable (_ ∧ _))

/-- Only the root has a path. -/
def initial : PathMap := fun path => if path = [] then some 1 else none

def add (m : PathMap) (p : ℕ) (s : String) (n : ℕ) : PathMap :=
  fun path => if m.Ends p s path then some n else m path

def remove (m : PathMap) (p : ℕ) (s : String) : PathMap :=
  fun path => if m.Ends p s path then none else m path

/-- The map tells where the paths without dots lead to in the store. -/
def Charts (m : PathMap) (t : FileStore) : Prop := ∀ path, PlainPath path → t.walk 1 path = m path

end PathMap

section Changes

variable {m : PathMap} {t t' : FileStore} {p n : ℕ} {a : UInt16} {names : String → Option ℕ}
  {s : String} {node : FileNode} {path : List String}

theorem PlainPath.dropLast (h : PlainPath path) : PlainPath path.dropLast :=
  fun c hc => h c (List.mem_of_mem_dropLast hc)

namespace PathMap

theorem Charts.ends (h : Charts m t) (hplain : PlainPath path) :
    t.Ends 1 p s path ↔ m.Ends p s path := by
  unfold Ends
  induction path using List.reverseRecOn with
  | nil => simp [Store.not_ends_nil]
  | append_singleton path c =>
    have hfirst := hplain.dropLast
    rw [List.dropLast_concat] at hfirst ⊢
    rw [Store.ends_concat, List.getLast?_concat, h path hfirst, Option.some_inj]

theorem Charts.link (h : Charts m t) (hp : t p = some (.dir a names)) (hs : names s = none)
    (hn : t n = none)
    (hnode : ∀ c, c ≠ "." ∧ c ≠ ".." → (t.link p a names s n node).child n c = none) :
    Charts (m.add p s n) (t.link p a names s n node) := by
  intro path hplain
  have hends := h.ends hplain (p := p) (s := s)
  ext q
  rw [Store.walk_link hp hs hn fun c hc => hnode c (hplain c hc), hends, h path hplain]
  unfold add
  split_ifs with hin
  · have hnone := (hends.mpr hin).walk
    rw [h path hplain, Store.child_of_dir hp, hs] at hnone
    simp [hnone, hin, eq_comm]
  · simp [hin]

theorem Charts.unlink (h : Charts m t) (hp : t p = some (.dir a names)) (hs : names s = some n)
    (hpn : p ≠ n) (hnode : ∀ c, c ≠ "." ∧ c ≠ ".." → t.child n c = none) :
    Charts (m.remove p s) (t.unlink p a names s n) := by
  intro path hplain
  have hends := h.ends hplain (p := p) (s := s)
  ext q
  rw [Store.walk_unlink hp hs hpn fun c hc => hnode c (hplain c hc), hends, h path hplain]
  unfold remove
  split_ifs with hin <;> simp [hin]

end PathMap

/-- The root names itself, and no other entry names it. -/
structure FileStore.Rooted (t : FileStore) : Prop where
  dot : t.child 1 "." = some 1
  unnamed : ∀ p s, s ≠ "." ∧ s ≠ ".." → t.child p s ≠ some 1

namespace FileStore.Rooted

theorem ne_one (h : t.Rooted) (hn : t n = none) : 1 ≠ n := by
  rintro rfl
  have hdot := h.dot
  rw [Store.child_eq_none hn] at hdot
  exact Option.some_ne_none _ hdot.symm

theorem link (h : t.Rooted) (hp : t p = some (.dir a names)) (hs : names s = none)
    (hn : t n = none)
    (hnode : ∀ c, c ≠ "." ∧ c ≠ ".." → (t.link p a names s n node).child n c = none) :
    FileStore.Rooted (t.link p a names s n node) where
  dot := (Store.child_link hp hs hn fun heq => absurd heq (h.ne_one hn)).mpr (Or.inl h.dot)
  unnamed k c hc := by
    rw [ne_eq, Store.child_link hp hs hn fun _ => hnode c hc, not_or]
    exact ⟨h.unnamed k c hc, fun hnew => h.ne_one hn hnew.1⟩

theorem unlink (h : t.Rooted) (hp : t p = some (.dir a names)) (hs : names s = some n)
    (hplain : s ≠ "." ∧ s ≠ "..") (hpn : p ≠ n)
    (hnode : ∀ c, c ≠ "." ∧ c ≠ ".." → t.child n c = none) :
    FileStore.Rooted (t.unlink p a names s n) where
  dot := by
    have hne : 1 ≠ n := fun heq => h.unnamed p s hplain ((Store.child_of_dir hp).trans (heq ▸ hs))
    rw [Store.child_unlink hp hpn fun heq => absurd heq hne]
    exact ⟨h.dot, fun heq => hplain.1 heq.2.symm⟩
  unnamed k c hc := by
    rw [ne_eq, Store.child_unlink hp hpn fun _ => hnode c hc, not_and_or]
    exact Or.inl (h.unnamed k c hc)

end FileStore.Rooted

/-- The store has its root, and the map tells where its paths lead to. -/
structure PathMap.Tracks (m : PathMap) (t : FileStore) : Prop where
  rooted : t.Rooted
  charts : m.Charts t

namespace PathMap.Tracks

theorem link (h : m.Tracks t) (hp : t p = some (.dir a names)) (hs : names s = none)
    (hn : t n = none)
    (hnode : ∀ c, c ≠ "." ∧ c ≠ ".." → (t.link p a names s n node).child n c = none) :
    (m.add p s n).Tracks (t.link p a names s n node) :=
  ⟨h.rooted.link hp hs hn hnode, h.charts.link hp hs hn hnode⟩

theorem unlink (h : m.Tracks t) (hp : t p = some (.dir a names)) (hs : names s = some n)
    (hplain : s ≠ "." ∧ s ≠ "..") (hpn : p ≠ n)
    (hnode : ∀ c, c ≠ "." ∧ c ≠ ".." → t.child n c = none) :
    (m.remove p s).Tracks (t.unlink p a names s n) :=
  ⟨h.rooted.unlink hp hs hplain hpn hnode, h.charts.unlink hp hs hpn hnode⟩

end PathMap.Tracks

end Changes

section Answers

variable {m : PathMap} {t t' : FileStore} {request : Request} {reply : Reply} {now : ℕ → Int64}

theorem EntryName.plain {name : ByteArray} (h : EntryName name) {fallback : String}
    (hdot : fallback ≠ ".") (hdotdot : fallback ≠ "..") :
    Fs.nameOr fallback name ≠ "." ∧ Fs.nameOr fallback name ≠ ".." :=
  ⟨EntryName.nameOr_ne hdot h.ne_dot, EntryName.nameOr_ne hdotdot h.ne_dotdot⟩

end Answers

end SimpleFS
